import ShardStore.Shard.Alone
/-!
The round loop of the graph stage: what each round shows the vertex programs.

The board files payloads by iteration and by vertex. Posting appends to one inbox, dropping
the iterations before one keeps the others, and the inbox a vertex reads is the one filed
under the engine's counter. A round runs every program with that inbox, moves the counter on,
drops the board's older iterations, and reports the new counter. The loop delivers the round's
messages to that counter, which is what the next round reads. With the messages sent while
setting up pending in front, the next round sees exactly the messages of the round before,
in send order. Nothing is ever posted past the counter, and the board keeps its iterations in
order: those two facts carry the induction over rounds.

Rounds only fail when a lookup does; with a lookup that always answers, as a shard's own store
does, every round finishes. The loop then stops after the first round that leaves no program
active, and the counter is the number of rounds run.
-/

namespace ShardStore

namespace Board

/-- The inboxes posted for iteration `i`. -/
def inboxesAt (l : List (Nat × List (Vertex × List Bytes))) (i : Nat) : List (Vertex × List Bytes) :=
  ((l.find? (·.1 = i)).map (·.2)).getD []

/-- The payloads an inbox list holds for a vertex. -/
def payloadsIn (ins : List (Vertex × List Bytes)) (v : Vertex) : List Bytes :=
  ((ins.find? (·.1 = v)).map (·.2)).getD []

theorem inbox_eq (b : Board) (i : Nat) (v : Vertex) :
    b.inbox i v = payloadsIn (inboxesAt b.byIter i) v := by
  unfold inbox inboxesAt payloadsIn
  cases b.byIter.find? (·.1 = i) <;> rfl

theorem payloadsIn_addTo (v : Vertex) (p : Bytes) (w : Vertex) :
    ∀ ins : List (Vertex × List Bytes),
      payloadsIn (addTo v p ins) w = payloadsIn ins w ++ if w = v then [p] else []
  | [] => by
    by_cases h : w = v
    · subst h; simp [addTo, payloadsIn]
    · simp [addTo, payloadsIn, Ne.symm h, h]
  | (u, ps) :: rest => by
    unfold addTo
    split
    · rename_i huv
      subst huv
      by_cases h : w = u
      · subst h; simp [payloadsIn]
      · simp [payloadsIn, Ne.symm h, h]
    · rename_i huv
      by_cases h : u = w
      · subst h; simp [payloadsIn, huv]
      · have := payloadsIn_addTo v p w rest
        simp only [payloadsIn, List.find?_cons, h, decide_false] at this ⊢
        exact this

/-- Iterations kept in strictly ascending order. -/
def Sorted (b : Board) : Prop := b.byIter.Pairwise fun x y => x.1 < y.1

theorem inboxesAt_postAt (i : Nat) (m : VertexMessage) (j : Nat) :
    ∀ l : List (Nat × List (Vertex × List Bytes)), l.Pairwise (fun x y => x.1 < y.1) →
      inboxesAt (postAt i m l) j =
        if j = i then addTo (m.graph, m.vtx) m.payload (inboxesAt l i) else inboxesAt l j
  | [], _ => by
    by_cases h : j = i
    · subst h; simp [postAt, inboxesAt, addTo]
    · simp [postAt, inboxesAt, Ne.symm h, h]
  | (k, ins) :: rest, hs => by
    have hrest : ∀ x ∈ rest, k < x.1 := fun x hx => List.rel_of_pairwise_cons hs hx
    unfold postAt
    split
    · rename_i hik
      by_cases hj : j = i
      · subst hj
        -- no later iteration is `j`: they all come after `k`, which is past `j`
        have hnone : rest.find? (·.1 = j) = none :=
          List.find?_eq_none.mpr fun x hx => by have := hrest x hx; simp; omega
        simp [inboxesAt, addTo, hnone, Nat.ne_of_gt hik]
      · simp [inboxesAt, hj, Ne.symm hj]
    · split
      · rename_i hik hik'
        subst hik'
        by_cases hj : j = i
        · subst hj; simp [inboxesAt]
        · simp [inboxesAt, hj, Ne.symm hj]
      · rename_i hik hik'
        have ih := inboxesAt_postAt i m j rest hs.of_cons
        by_cases hj : j = k
        · subst hj
          have hji : j ≠ i := fun h => hik' h.symm
          simp [inboxesAt, hji]
        · simp only [inboxesAt, List.find?_cons, Ne.symm hj, Ne.symm hik', decide_false] at ih ⊢
          exact ih

theorem fst_mem_postAt (i : Nat) (m : VertexMessage) :
    ∀ {l : List (Nat × List (Vertex × List Bytes))} {x}, x ∈ postAt i m l → x.1 = i ∨ ∃ y ∈ l, y.1 = x.1
  | [], x, hx => by simp [postAt] at hx; exact .inl (hx ▸ rfl)
  | (k, ins) :: rest, x, hx => by
    unfold postAt at hx
    split at hx
    · rcases List.mem_cons.mp hx with rfl | hx
      · exact .inl rfl
      · exact .inr ⟨x, hx, rfl⟩
    · split at hx
      · rcases List.mem_cons.mp hx with rfl | hx
        · exact .inr ⟨(k, ins), List.mem_cons_self, rfl⟩
        · exact .inr ⟨x, List.mem_cons_of_mem _ hx, rfl⟩
      · rcases List.mem_cons.mp hx with rfl | hx
        · exact .inr ⟨(k, ins), List.mem_cons_self, rfl⟩
        · rcases fst_mem_postAt i m hx with h | ⟨y, hy, h⟩
          · exact .inl h
          · exact .inr ⟨y, List.mem_cons_of_mem _ hy, h⟩

theorem pairwise_postAt (i : Nat) (m : VertexMessage) :
    ∀ {l : List (Nat × List (Vertex × List Bytes))}, l.Pairwise (fun x y => x.1 < y.1) →
      (postAt i m l).Pairwise (fun x y => x.1 < y.1)
  | [], _ => by simp [postAt]
  | (k, ins) :: rest, hs => by
    have hrest : ∀ x ∈ rest, k < x.1 := fun x hx => List.rel_of_pairwise_cons hs hx
    unfold postAt
    split
    · rename_i hik
      exact List.Pairwise.cons (fun x hx => by
        rcases List.mem_cons.mp hx with rfl | hx
        · exact hik
        · exact Nat.lt_trans hik (hrest x hx)) hs
    · split
      · exact List.Pairwise.cons hrest hs.of_cons
      · rename_i hik hik'
        refine List.Pairwise.cons (fun x hx => ?_) (pairwise_postAt i m hs.of_cons)
        rcases fst_mem_postAt i m hx with h | ⟨y, hy, h⟩
        · rw [h]; omega
        · rw [← h]; exact hrest y hy

theorem Sorted.post {b : Board} (hs : b.Sorted) (i : Nat) (m : VertexMessage) :
    (b.post i m).Sorted :=
  pairwise_postAt i m hs

/-- Posting a message appends its payload to its vertex's inbox at its iteration. -/
theorem inbox_post {b : Board} (hs : b.Sorted) (i : Nat) (m : VertexMessage) (j : Nat)
    (v : Vertex) :
    (b.post i m).inbox j v = b.inbox j v ++ if j = i ∧ v = (m.graph, m.vtx) then [m.payload] else [] := by
  rw [inbox_eq, inbox_eq, post, inboxesAt_postAt i m j _ hs]
  by_cases hj : j = i
  · subst hj
    rw [if_pos rfl, payloadsIn_addTo]
    simp
  · simp [hj]

/-- The payloads of messages addressed to a vertex, in send order. -/
def payloadsTo (v : Vertex) (ms : List VertexMessage) : List Bytes :=
  (ms.filter fun m => (m.graph, m.vtx) = v).map (·.payload)

theorem Sorted.extend {b : Board} (hs : b.Sorted) (i : Nat) :
    ∀ ms : List VertexMessage, (b.extend i ms).Sorted := by
  intro ms
  induction ms generalizing b with
  | nil => exact hs
  | cons m ms ih => exact ih (hs.post i m)

/-- Delivering messages for an iteration appends, to each vertex's inbox there, the payloads
addressed to it in order. -/
theorem inbox_extend {b : Board} (hs : b.Sorted) (i : Nat) (ms : List VertexMessage) (j : Nat)
    (v : Vertex) :
    (b.extend i ms).inbox j v = b.inbox j v ++ if j = i then payloadsTo v ms else [] := by
  induction ms generalizing b with
  | nil => simp [extend, payloadsTo]
  | cons m ms ih =>
    show ((b.post i m).extend i ms).inbox j v = _
    rw [ih (hs.post i m), inbox_post hs]
    by_cases hj : j = i
    · by_cases hv : (m.graph, m.vtx) = v
      · simp [hj, hv, payloadsTo]
      · simp [hj, hv, payloadsTo, Ne.symm hv]
    · simp [hj]

theorem Sorted.discardBefore {b : Board} (hs : b.Sorted) (i : Nat) : (b.discardBefore i).Sorted :=
  hs.filter _

/-- Dropping the iterations before `i` empties their inboxes and keeps the others. -/
theorem inbox_discardBefore (b : Board) (i j : Nat) (v : Vertex) :
    (b.discardBefore i).inbox j v = if i ≤ j then b.inbox j v else [] := by
  rw [inbox_eq, inbox_eq, discardBefore, inboxesAt, inboxesAt, List.find?_filter]
  by_cases hij : i ≤ j
  · rw [if_pos hij]
    congr 4
    funext x
    by_cases hx : x.1 = j
    · simp [hx, hij]
    · simp [hx]
  · rw [if_neg hij]
    have : List.find? (fun x => decide (x.1 ≥ i) && decide (x.1 = j)) b.byIter = none :=
      List.find?_eq_none.mpr fun x _ => by simp; omega
    simp [this, payloadsIn]

theorem sorted_empty : empty.Sorted := List.Pairwise.nil

@[simp] theorem inbox_empty (i : Nat) (v : Vertex) : empty.inbox i v = [] := rfl

end Board

/-- A lookup that always answers a by-key read. -/
def Lookup.Total (look : Lookup) : Prop := ∀ k, ∃ x, look.value k = .ok x

theorem Lookup.total_ofStore (s : EntryStore) : (Lookup.ofStore s).Total := fun _ => ⟨_, rfl⟩

namespace VertexOut

@[simp] theorem sent_send (o : VertexOut) (g : GraphId) (t : VertexId) (p : Bytes) :
    (o.send g t p).sent = o.sent.push ⟨g, t, p⟩ := rfl

@[simp] theorem sent_emit (o : VertexOut) (m : Mutation) : (o.emit m).sent = o.sent := rfl

theorem prefix_foldl_send (g : GraphId) (p : Bytes) :
    ∀ (es : List OutEdge) (o : VertexOut),
      o.sent.toList <+: (es.foldl (fun o e => o.send g e.target p) o).sent.toList
  | [], o => List.prefix_refl _
  | e :: es, o => by
    rw [List.foldl_cons]
    refine List.IsPrefix.trans ?_ (prefix_foldl_send g p es _)
    simp

end VertexOut

/-- The fold of an inbox into one word: payloads that are not words are dropped. -/
def Gas.gatherAll {α : Type} (g : Gas α) (inbox : List Bytes) : α :=
  inbox.foldl (fun acc p =>
    match g.decode p with
    | some m => g.gather m acc
    | none => acc) g.start

/-- The part of a run after the value is known: past iteration 0 fold the inbox in, saving and
going inactive when the value stands, then scatter to every out edge. -/
def Gas.settle {α : Type} [DecidableEq α] (g : Gas α)
    (save : VertexView → α → VertexOut → Outcome VertexOut) (v : VertexView) (x : α)
    (o : VertexOut) : Outcome (α × VertexOut) := do
  let (x, o) ← if v.iter > 0 then do
      let y := g.apply x (g.gatherAll v.inbox)
      if x = y then do
        let o ← save v y o
        pure (y, { o with state := .inactive })
      else pure (y, { o with state := .active })
    else pure (x, { o with state := .active })
  let p := g.encode (g.scatter x)
  pure (x, v.edges.foldl (fun o e => o.send v.graph e.target p) o)

theorem Gas.run_eq {α : Type} [DecidableEq α] (g : Gas α)
    (init : VertexView → VertexOut → Outcome (α × VertexOut))
    (save : VertexView → α → VertexOut → Outcome VertexOut) (value : Option α) (v : VertexView)
    (o : VertexOut) :
    g.run init save value v o =
      (match value with
        | some x => pure (x, o)
        | none => init v o) >>= fun p => g.settle save v p.1 p.2 := by
  cases value <;> rfl

/-- Settling keeps the messages sent so far and sends more, when saving succeeds without
sending. -/
theorem Gas.settle_ok {α : Type} [DecidableEq α] (g : Gas α)
    {save : VertexView → α → VertexOut → Outcome VertexOut} (v : VertexView) (x : α)
    (o : VertexOut) (hsave : ∀ y o', ∃ o'', save v y o' = .ok o'' ∧ o''.sent = o'.sent) :
    ∃ y o', g.settle save v x o = .ok (y, o') ∧ o.sent.toList <+: o'.sent.toList := by
  have hscatter := fun (x : α) (o' : VertexOut) =>
    VertexOut.prefix_foldl_send v.graph (g.encode (g.scatter x)) v.edges o'
  unfold Gas.settle
  dsimp only
  split
  · split
    · obtain ⟨o2, hs, hs2⟩ := hsave (g.apply x (g.gatherAll v.inbox)) o
      rw [hs]
      exact ⟨_, _, rfl, by simpa [hs2] using hscatter _ { o2 with state := .inactive }⟩
    · exact ⟨_, _, rfl, hscatter _ { o with state := .active }⟩
  · exact ⟨_, _, rfl, hscatter _ { o with state := .active }⟩

/-- A run of the template finishes, keeps the messages sent so far and sends more, when its
start and its save finish without sending. -/
theorem Gas.run_ok {α : Type} [DecidableEq α] (g : Gas α)
    (init : VertexView → VertexOut → Outcome (α × VertexOut))
    (save : VertexView → α → VertexOut → Outcome VertexOut) (value : Option α) (v : VertexView)
    (o : VertexOut) (hinit : ∃ x o', init v o = .ok (x, o') ∧ o'.sent = o.sent)
    (hsave : ∀ y o', ∃ o'', save v y o' = .ok o'' ∧ o''.sent = o'.sent) :
    ∃ x o', g.run init save value v o = .ok (x, o') ∧ o.sent.toList <+: o'.sent.toList := by
  obtain ⟨x, o1, hstart, hsent⟩ : ∃ (x : α) (o1 : VertexOut), (match value with
      | some x => (pure (x, o) : Outcome (α × VertexOut))
      | none => init v o) = .ok (x, o1) ∧ o1.sent = o.sent := by
    cases value with
    | some x => exact ⟨x, o, rfl, rfl⟩
    | none => exact hinit
  obtain ⟨y, o2, hsettle, hpre⟩ := g.settle_ok v x o1 hsave
  rw [Gas.run_eq, hstart]
  exact ⟨y, o2, hsettle, hsent ▸ hpre⟩

theorem Program.distanceInit_ok (chain : String) (domain : UInt32) (v : VertexView)
    (o : VertexOut) (hl : v.lookup.Total) :
    ∃ x o', distanceInit chain domain v o = .ok (x, o') ∧ o'.sent = o.sent := by
  obtain ⟨r1, h1⟩ := hl (GroupFilter.seedKey domain v.vtx)
  obtain ⟨r2, h2⟩ := hl (GroupFilter.distanceKey domain v.vtx)
  simp only [distanceInit, h1, h2, bind, Except.bind]
  cases r2 with
  | none => exact ⟨_, _, rfl, rfl⟩
  | some raw =>
    dsimp only
    split <;> exact ⟨_, _, rfl, rfl⟩

theorem Program.maximumInit_ok (name : String) (out : GraphId) (v : VertexView)
    (o : VertexOut) (hl : v.lookup.Total) :
    ∃ x o', maximumInit name out v o = .ok (x, o') ∧ o'.sent = o.sent := by
  obtain ⟨r, h⟩ := hl ⟨out, v.vtx, 0⟩
  simp only [maximumInit, h, bind, Except.bind]
  cases r <;> exact ⟨_, _, rfl, rfl⟩

theorem VertexOut.sent_foldl_emit {β : Type} (f : VertexOut → β → VertexOut)
    (hf : ∀ o b, (f o b).sent = o.sent) :
    ∀ (bs : List β) (o : VertexOut), (bs.foldl f o).sent = o.sent
  | [], _ => rfl
  | b :: bs, o => (sent_foldl_emit f hf bs (f o b)).trans (hf o b)

/-- With a lookup that always answers, every program run finishes, keeping the messages sent so
far and sending more. -/
theorem Program.run_ok (p : Program) (v : VertexView) (o : VertexOut) (hl : v.lookup.Total) :
    ∃ p' o', p.run v o = .ok (p', o') ∧ o.sent.toList <+: o'.sent.toList := by
  cases p with
  | distance chain domain value =>
    obtain ⟨x, o', h, hpre⟩ := Gas.distance.run_ok (distanceInit chain domain)
      (distanceSave chain domain) value v o (distanceInit_ok chain domain v o hl)
      fun y o' => ⟨_, rfl, VertexOut.sent_foldl_emit (fun (o : VertexOut) (e : OutEdge) =>
        o.emit (.addTag e.entry.key (doneTag (chain ++ "_tx_subgraph_search")))) (fun _ _ => rfl)
        _ _⟩
    exact ⟨_, o', by simp only [run, h, bind, Except.bind]; rfl, hpre⟩
  | maximum name out value =>
    obtain ⟨x, o', h, hpre⟩ := Gas.maximum.run_ok (maximumInit name out) (maximumSave out)
      value v o (maximumInit_ok name out v o hl) fun y o' => ⟨_, rfl, rfl⟩
    exact ⟨_, o', by simp only [run, h, bind, Except.bind]; rfl, hpre⟩
  | marker name out add remove count =>
    refine ⟨_, _, rfl, ?_⟩
    -- the marker only makes mutations
    rw [show ∀ o' : VertexOut, ({ o' with state := .inactive } : VertexOut).sent = o'.sent from
      fun _ => rfl, VertexOut.sent_foldl_emit (fun (o : VertexOut) (e : OutEdge) =>
        (o.emit (.removeTag e.entry.key remove)).emit (.addTag e.entry.key add)) (fun _ _ => rfl)]
    exact List.prefix_refl _

namespace Engine

variable {look : Lookup}

/-- With a lookup that always answers, running a slot's programs finishes and only adds to the
messages sent. -/
theorem runSlot_go_ok (hl : look.Total) (iter : Nat) (inbox : List Bytes) :
    ∀ (ps done : List (Option Program)) (s : Slot) (o : VertexOut) (runs : Nat) (act : Bool),
      (runSlot.go iter inbox look ps done s o runs act).2.2.2.2 = none ∧
        o.sent.toList <+: (runSlot.go iter inbox look ps done s o runs act).2.1.sent.toList := by
  intro ps
  induction ps with
  | nil => intro _ _ o _ _; exact ⟨rfl, List.prefix_refl _⟩
  | cons p ps ih =>
    intro done s o runs act
    cases p with
    | none => exact ih _ _ _ _ _
    | some p =>
      obtain ⟨p', o', hrun, hpre⟩ := p.run_ok (view s iter inbox look) { o with state := s.state } hl
      unfold runSlot.go
      rw [hrun]
      obtain ⟨hnone, hpre'⟩ := ih (some p' :: done) { s with state := o'.state } o' (runs + 1)
        (act || o'.state == .active)
      exact ⟨hnone, hpre.trans hpre'⟩

theorem round_go_ok (e : Engine) (hl : look.Total) (iter : Nat) :
    ∀ (fuel i : Nat) (slots : Array Slot) (o : VertexOut) (runs : Nat) (act : Bool),
      (round.go e look iter i slots o runs act fuel).2.2.2.2 = none ∧
        o.sent.toList <+: (round.go e look iter i slots o runs act fuel).2.1.sent.toList := by
  intro fuel
  induction fuel with
  | zero => intro _ _ o _ _; exact ⟨rfl, List.prefix_refl _⟩
  | succ fuel ih =>
    intro i slots o runs act
    unfold round.go
    split
    · exact ⟨rfl, List.prefix_refl _⟩
    · rename_i s _
      obtain ⟨hnone, hpre⟩ := runSlot_go_ok hl iter (e.board.inbox iter s.vertex) s.programs [] s o
        0 false
      rw [runSlot]
      dsimp only
      rw [hnone]
      obtain ⟨hnone', hpre'⟩ := ih (i + 1) _ _ _ _
      exact ⟨hnone', hpre.trans hpre'⟩

/-- With a lookup that always answers, a round finishes: it clears what was pending, moves the
counter on, drops the board's iterations before the new one, and reports the new counter and the
messages sent, those pending first. -/
theorem round_ok (hl : look.Total) (e : Engine) :
    ∃ slots effects act sent runs,
      e.round look =
        ({ e with slots, pending := #[], iter := e.iter + 1,
                  board := e.board.discardBefore (e.iter + 1) },
          effects, .ok ⟨e.iter + 1, act, sent, runs⟩) ∧
        e.pending.toList <+: sent.toList := by
  obtain ⟨hnone, hpre⟩ := round_go_ok e hl e.iter e.slots.size 0 e.slots ⟨.active, e.pending, #[]⟩ 0 false
  unfold round
  dsimp only
  rw [hnone]
  exact ⟨_, _, _, _, _, rfl, hpre⟩

/-- What the next round shows the programs of a vertex: the payloads posted for it at the
engine's iteration. -/
def inboxOf (e : Engine) (v : Vertex) : List Bytes := e.board.inbox e.iter v

/-- One turn of the loop: a round, then delivery of its messages to the iteration it reports. -/
def advance (look : Lookup) (e : Engine) : Engine :=
  match e.round look with
  | (e', _, .ok out) => e'.deliver out.iter out.outgoing.toList
  | (e', _, .error _) => e'

/-- The engine after `n` turns of the loop. -/
def afterRounds (look : Lookup) (e : Engine) : Nat → Engine
  | 0 => e
  | n + 1 => (e.afterRounds look n).advance look

/-- The mutations the first `n` rounds make, in order. -/
def madeIn (look : Lookup) (e : Engine) : Nat → Array Mutation
  | 0 => #[]
  | n + 1 => e.madeIn look n ++ ((e.afterRounds look n).round look).2.1

/-- Whether the loop stops after the round run on this engine: the round failed, or left no
program active. -/
def stopsAfter (look : Lookup) (e : Engine) : Bool :=
  match (e.round look).2.2 with
  | .ok out => !out.active
  | .error _ => true

/-- Nothing is posted past the engine's iteration. -/
def NothingAhead (e : Engine) : Prop := ∀ j > e.iter, ∀ v, e.board.inbox j v = []

theorem afterRounds_succ' (e : Engine) (n : Nat) :
    e.afterRounds look (n + 1) = (e.advance look).afterRounds look n := by
  induction n with
  | zero => rfl
  | succ n ih => rw [afterRounds, ih]; rfl

theorem madeIn_succ' (e : Engine) (n : Nat) :
    e.madeIn look (n + 1) = (e.round look).2.1 ++ (e.advance look).madeIn look n := by
  induction n with
  | zero => simp [madeIn, afterRounds]
  | succ n ih => rw [madeIn, ih, madeIn, afterRounds_succ', Array.append_assoc]

/-- A turn with a lookup that always answers: what it reports, and the engine it leaves. -/
theorem advance_ok (hl : look.Total) (e : Engine) :
    ∃ out : RoundOutcome, (e.round look).2.2 = .ok out ∧ out.iter = e.iter + 1 ∧
      e.pending.toList <+: out.outgoing.toList ∧
      (e.advance look).iter = e.iter + 1 ∧ (e.advance look).pending = #[] ∧
      (e.advance look).board =
        (e.board.discardBefore (e.iter + 1)).extend (e.iter + 1) out.outgoing.toList := by
  obtain ⟨slots, effects, act, sent, runs, hround, hpre⟩ := round_ok hl e
  refine ⟨⟨e.iter + 1, act, sent, runs⟩, by rw [hround], rfl, hpre, ?_, ?_, ?_⟩ <;>
    simp only [advance, hround] <;> rfl

theorem advance_sorted (hl : look.Total) {e : Engine} (hs : e.board.Sorted) :
    (e.advance look).board.Sorted := by
  obtain ⟨out, -, -, -, -, -, hb⟩ := advance_ok hl e
  rw [hb]
  exact (hs.discardBefore _).extend _ _

theorem advance_nothingAhead (hl : look.Total) {e : Engine} (hs : e.board.Sorted)
    (ha : e.NothingAhead) : (e.advance look).NothingAhead := by
  obtain ⟨out, -, -, -, hi, -, hb⟩ := advance_ok hl e
  intro j hj v
  rw [hi] at hj
  rw [hb, Board.inbox_extend (hs.discardBefore _), Board.inbox_discardBefore,
    if_pos (Nat.le_of_lt hj), ha j (by omega) v, if_neg (Nat.ne_of_gt hj)]
  rfl

/-- The round after a turn shows each vertex exactly the messages the turn's round sent it, in
order: nothing was posted ahead, and the board keeps the iteration just posted to. -/
theorem inboxOf_advance (hl : look.Total) {e : Engine} (hs : e.board.Sorted)
    (ha : e.NothingAhead) {out : RoundOutcome} (hout : (e.round look).2.2 = .ok out) (v : Vertex) :
    (e.advance look).inboxOf v = Board.payloadsTo v out.outgoing.toList := by
  obtain ⟨out', hout', -, -, hi, -, hb⟩ := advance_ok hl e
  obtain rfl : out' = out := Except.ok.inj (hout'.symm.trans hout)
  rw [inboxOf, hi, hb, Board.inbox_extend (hs.discardBefore _), Board.inbox_discardBefore,
    if_pos (Nat.le_refl _), ha _ (Nat.lt_succ_self _) v, if_pos rfl, List.nil_append]

theorem afterRounds_iter (hl : look.Total) (e : Engine) :
    ∀ n, (e.afterRounds look n).iter = e.iter + n
  | 0 => rfl
  | n + 1 => by
    obtain ⟨-, -, -, -, hi, -⟩ := advance_ok hl (e.afterRounds look n)
    rw [afterRounds, hi, afterRounds_iter hl e n, Nat.add_assoc]

theorem afterRounds_pending (hl : look.Total) (e : Engine) (n : Nat) :
    (e.afterRounds look (n + 1)).pending = #[] :=
  (advance_ok hl (e.afterRounds look n)).choose_spec.2.2.2.2.1

/-- Every turn keeps the board's iterations in order and nothing posted ahead. -/
theorem afterRounds_invariant (hl : look.Total) {e : Engine} (hs : e.board.Sorted)
    (ha : e.NothingAhead) : ∀ n, (e.afterRounds look n).board.Sorted ∧ (e.afterRounds look n).NothingAhead
  | 0 => ⟨hs, ha⟩
  | n + 1 => by
    obtain ⟨hs', ha'⟩ := afterRounds_invariant hl hs ha n
    exact ⟨advance_sorted hl hs', advance_nothingAhead hl hs' ha'⟩

/-- The loop, with a lookup that always answers: when the rounds before round `k` keep some
program active and round `k` leaves none, and the fuel allows `k + 1` rounds, the loop runs
exactly rounds `0` to `k`, ending with the engine after `k + 1` turns and the mutations of those
rounds, in order. -/
theorem rounds_eq (hl : look.Total) :
    ∀ (k : Nat) (e : Engine) (acc : Array Mutation) (fuel : Nat), k < fuel →
      (∀ i < k, (e.afterRounds look i).stopsAfter look = false) →
      (e.afterRounds look k).stopsAfter look = true →
      LocalDb.rounds look e acc fuel = (e.afterRounds look (k + 1), acc ++ e.madeIn look (k + 1), none)
  | k, e, acc, fuel + 1, hk, hgo, hstop => by
    obtain ⟨slots, effects, act, sent, runs, hround, -⟩ := round_ok hl e
    have hstep : LocalDb.rounds look e acc (fuel + 1) =
        if act then LocalDb.rounds look (e.advance look) (acc ++ effects) fuel
        else (e.advance look, acc ++ effects, none) := by
      simp only [LocalDb.rounds, advance, hround]
    have hact : e.stopsAfter look = !act := by simp only [stopsAfter, hround]
    cases k with
    | zero =>
      -- round 0 is the first to leave every program inactive
      have hq : act = false := by simpa [afterRounds, hact] using hstop
      rw [hstep, if_neg (by simp [hq])]
      simp [afterRounds, madeIn, hround]
    | succ k =>
      have hq : act = true := by simpa [afterRounds, hact] using hgo 0 (Nat.succ_pos k)
      rw [hstep, if_pos hq, rounds_eq hl k (e.advance look) (acc ++ effects) fuel (by omega)
        (fun i hi => by rw [← afterRounds_succ']; exact hgo (i + 1) (by omega))
        (by rw [← afterRounds_succ']; exact hstop),
        afterRounds_succ' e (k + 1), madeIn_succ' e (k + 1), hround, Array.append_assoc]

/-- Setting up touches neither the board, nor the counter, nor what is pending. -/
theorem setup_board (e : Engine) (store : EntryStore) (filters : List GroupFilter) (look : Lookup) :
    (e.setup store filters look).1.board = e.board ∧ (e.setup store filters look).1.iter = e.iter ∧
      (e.setup store filters look).1.pending = e.pending := by
  unfold setup
  dsimp only
  split <;> exact ⟨rfl, rfl, rfl⟩

end Engine

/-- The round loop of a shard's graph stage, on an engine set up afresh for any vertices, store
and group filters. The first round shows every vertex an empty inbox. Each round finishes and
reports the counter after it; what was pending when it started (the messages sent while setting
up) opens the messages it sends, and nothing is pending after it. The round after it shows each
vertex exactly the messages this round sent it, in send order, so every message is shown in the
round after the one that sent it and in no other. When round `k` is the first to leave no
program active, the loop, given fuel for `k + 1` rounds, stops right after it, with the counter
at `k + 1`: the number of rounds run. -/
theorem round_loop_delivers (vs : List Vertex) (store : EntryStore) (filters : List GroupFilter) :
    let look := Lookup.ofStore store
    let e := ((Engine.empty.addVertices vs).setup store filters look).1
    (∀ v, e.inboxOf v = []) ∧
    (∀ n, ∃ out : RoundOutcome, ((e.afterRounds look n).round look).2.2 = .ok out ∧
      out.iter = n + 1 ∧ (e.afterRounds look n).pending.toList <+: out.outgoing.toList ∧
      (e.afterRounds look (n + 1)).pending = #[] ∧
      ∀ v, (e.afterRounds look (n + 1)).inboxOf v = Board.payloadsTo v out.outgoing.toList) ∧
    (∀ k fuel, k < fuel → (∀ i < k, (e.afterRounds look i).stopsAfter look = false) →
      (e.afterRounds look k).stopsAfter look = true →
      LocalDb.rounds look e #[] fuel = (e.afterRounds look (k + 1), e.madeIn look (k + 1), none) ∧
        (e.afterRounds look (k + 1)).iter = k + 1) := by
  intro look e
  have hl : look.Total := Lookup.total_ofStore store
  obtain ⟨hb, hi, -⟩ := Engine.setup_board (Engine.empty.addVertices vs) store filters look
  -- a fresh engine starts at iteration 0 with an empty board
  have hb0 : e.board = Board.empty := hb
  have hi0 : e.iter = 0 := hi
  have hinv := Engine.afterRounds_invariant hl (e := e) (hb0 ▸ Board.sorted_empty)
    (fun j _ v => by rw [hb0]; rfl)
  refine ⟨fun v => by rw [Engine.inboxOf, hb0]; rfl, fun n => ?_, fun k fuel hk hgo hstop => ?_⟩
  · obtain ⟨hs, ha⟩ := hinv n
    obtain ⟨out, hout, hiter, hpre, -, hpend, -⟩ := Engine.advance_ok hl (e.afterRounds look n)
    refine ⟨out, hout, by rw [hiter, Engine.afterRounds_iter hl, hi0, Nat.zero_add], hpre, hpend,
      fun v => Engine.inboxOf_advance hl hs ha hout v⟩
  · exact ⟨by rw [Engine.rounds_eq hl k e #[] fuel hk hgo hstop, Array.empty_append],
      by rw [Engine.afterRounds_iter hl, hi0, Nat.zero_add]⟩

/-- One edge `2 → 3` of graph 1 under the maximum filter: round 0 keeps both vertices active,
round 1 leaves them inactive, and the loop stops after two rounds. -/
theorem round_loop_delivers_edge :
    let store : EntryStore := ⟨[Entry.make ⟨1, 2, 3⟩ ["e"] []], [], 0, none⟩
    let filters := [GroupFilter.maximum "m" 1 9]
    let look := Lookup.ofStore store
    let e := ((Engine.empty.addVertices (Engine.localVertices store)).setup store filters look).1
    0 < 2 ∧ (e.afterRounds look 0).stopsAfter look = false ∧
      (e.afterRounds look 1).stopsAfter look = true ∧
      LocalDb.rounds look e #[] 2 = (e.afterRounds look 2, e.madeIn look 2, none) ∧
      (e.afterRounds look 2).iter = 2 := by
  intro store filters look e
  have h0 : (e.afterRounds look 0).stopsAfter look = false := by decide
  have h1 : (e.afterRounds look 1).stopsAfter look = true := by decide
  exact ⟨by decide, h0, h1, (round_loop_delivers _ store filters).2.2 1 2 (by decide)
    (fun i hi => by
      obtain rfl : i = 0 := by omega
      exact h0) h1⟩

end ShardStore
