import ShardStore.Mesh.Barrier
/-!
When an agent's wait at a barrier completes.

Three calls drive an agent's wait, in any order: a counted mutation arrives (`recordRecv`), the
synchronizer's count for the barrier arrives (`expect`), and the barrier ends (`finish`). The
first two check whether the wait is complete: it is when a count is known and the receipts meet
it, and the receipts and the count then start over.

Read against the calls made so far, a wait holds exactly two things (`Agrees`): the receipts
since the last call that completed it, and the count expected last since then. Every call keeps
this, so a receipt or a count completes the wait exactly when, with that call, the count expected
last equals the receipts since the last completion. The completing call leaves the wait arrived,
and only the end of the barrier takes that back. Receipts only add to the count, so a count that
has passed the expected one never comes back to it: nothing completes the wait until another
count is expected.
-/

namespace ShardStore

namespace Wait

/-- A call on a wait. -/
inductive Call where
  /-- A counted mutation arrived. -/
  | recv
  /-- The synchronizer says how many mutations to expect. -/
  | expect (n : Nat)
  /-- The barrier ended. -/
  | finish
deriving DecidableEq, Repr

/-- Make a call: whether it completes the wait, and the wait after it. Ending the barrier
completes nothing. -/
def Call.apply : Call → Wait → Bool × Wait
  | .recv, w => w.recordRecv
  | .expect n, w => w.expect n
  | .finish, w => (false, w.finish)

/-- The count a call sets, if it is an expectation. -/
def Call.expected? : Call → Option Nat
  | .expect n => some n
  | _ => none

/-- Make calls in turn: each call with its answer, and the wait after them. -/
def replay (w : Wait) : List Call → List (Call × Bool) × Wait
  | [] => ([], w)
  | c :: cs => ((c, (c.apply w).1) :: (replay (c.apply w).2 cs).1, (replay (c.apply w).2 cs).2)

/-- The calls since the last one that completed the wait, oldest first. -/
def sinceArrival (tr : List (Call × Bool)) : List Call :=
  tr.foldl (fun cs cb => if cb.2 then [] else cs ++ [cb.1]) []

/-- The receipts among calls. -/
def receipts (cs : List Call) : Nat := cs.count .recv

/-- The count the last expectation among calls set, if any did. -/
def lastExpected (cs : List Call) : Option Nat := cs.foldl (fun e c => c.expected?.or e) none

@[simp] theorem sinceArrival_snoc (tr : List (Call × Bool)) (c : Call) (b : Bool) :
    sinceArrival (tr ++ [(c, b)]) = if b then [] else sinceArrival tr ++ [c] := by
  simp [sinceArrival, List.foldl_append]

@[simp] theorem receipts_nil : receipts [] = 0 := rfl

@[simp] theorem receipts_snoc (cs : List Call) (c : Call) :
    receipts (cs ++ [c]) = receipts cs + if c = .recv then 1 else 0 := by
  by_cases hc : c = .recv <;> simp [receipts, hc]

@[simp] theorem lastExpected_nil : lastExpected [] = none := rfl

@[simp] theorem lastExpected_snoc (cs : List Call) (c : Call) :
    lastExpected (cs ++ [c]) = c.expected?.or (lastExpected cs) := by
  simp [lastExpected, List.foldl_append]

/-- The check completes the wait exactly when a count is known and the receipts meet it; it then
starts over, arrived. -/
theorem tryArrive_eq (w : Wait) :
    w.tryArrive = if w.expected = some w.received then (true, ⟨0, none, true⟩) else (false, w) := by
  unfold tryArrive
  cases he : w.expected with
  | none => simp
  | some n =>
    by_cases hn : w.received = n
    · simp [hn]
    · simp [hn, Ne.symm hn]

/-! ### What a wait holds -/

/-- A wait agrees with the calls made on it: it holds the receipts since its last completion and
the count expected last since then. -/
structure Agrees (tr : List (Call × Bool)) (w : Wait) : Prop where
  received : w.received = receipts (sinceArrival tr)
  expected : w.expected = lastExpected (sinceArrival tr)

/-- A check made after counting the call `c` keeps the wait in agreement with the calls. -/
theorem agrees_tryArrive {tr : List (Call × Bool)} {c : Call} {w : Wait}
    (hr : w.received = receipts (sinceArrival tr ++ [c]))
    (he : w.expected = lastExpected (sinceArrival tr ++ [c])) :
    Agrees (tr ++ [(c, w.tryArrive.1)]) w.tryArrive.2 := by
  rw [tryArrive_eq]
  split
  · -- the call completed the wait: nothing is counted since
    exact ⟨by simp, by simp⟩
  · exact ⟨by simp [hr], by simp [he]⟩

variable {tr : List (Call × Bool)} {w : Wait}

/-- Every call keeps a wait in agreement with the calls made on it. -/
theorem Agrees.apply (h : Agrees tr w) (c : Call) :
    Agrees (tr ++ [(c, (c.apply w).1)]) (c.apply w).2 := by
  cases c with
  | recv =>
    refine agrees_tryArrive ?_ ?_
    · show w.received + 1 = _
      simp [h.received]
    · show w.expected = _
      simp [h.expected, Call.expected?]
  | expect n =>
    refine agrees_tryArrive ?_ ?_
    · show w.received = _
      simp [h.received]
    · show some n = _
      simp [Call.expected?]
  | finish =>
    exact ⟨by simp [Call.apply, Wait.finish, h.received],
      by simp [Call.apply, Wait.finish, h.expected, Call.expected?]⟩

theorem Agrees.replay (h : Agrees tr w) (cs : List Call) :
    Agrees (tr ++ (replay w cs).1) (replay w cs).2 := by
  induction cs generalizing tr w with
  | nil => simpa [Wait.replay] using h
  | cons c cs ih => simpa [Wait.replay] using ih (h.apply c)

/-- The receipts have passed the count expected. -/
def Overshot (w : Wait) : Prop := ∃ e, w.expected = some e ∧ e < w.received

/-- Past the expected count, a receipt or the end of the barrier completes nothing and leaves the
count past it. -/
theorem Overshot.apply (h : w.Overshot) {c : Call} (hc : c.expected? = none) :
    (c.apply w).1 = false ∧ (c.apply w).2.Overshot := by
  obtain ⟨e, he, hlt⟩ := h
  cases c with
  | recv =>
    have hne : ¬ e = w.received + 1 := by omega
    have hstep : (Call.recv.apply w) = (false, { w with received := w.received + 1 }) := by
      show tryArrive { w with received := w.received + 1 } = _
      rw [tryArrive_eq]
      simp [he, hne]
    rw [hstep]
    exact ⟨rfl, e, he, by show e < w.received + 1; omega⟩
  | expect n => simp [Call.expected?] at hc
  | finish => exact ⟨rfl, e, he, hlt⟩

theorem Overshot.replay (h : w.Overshot) {cs : List Call} (hc : ∀ c ∈ cs, c.expected? = none) :
    ∀ x ∈ (replay w cs).1, x.2 = false := by
  induction cs generalizing w with
  | nil => intro x hx; simp [Wait.replay] at hx
  | cons c cs ih =>
    obtain ⟨hb, h'⟩ := h.apply (hc c List.mem_cons_self)
    intro x hx
    rcases List.mem_cons.mp hx with rfl | hx
    · exact hb
    · exact ih h' (fun c' hc' => hc c' (List.mem_cons_of_mem _ hc')) x hx

example : (replay empty [.recv, .expect 1, .expect 3, .recv, .recv, .recv]).1 =
    [(.recv, false), (.expect 1, true), (.expect 3, false), (.recv, false), (.recv, false),
      (.recv, true)] := by decide

end Wait

end ShardStore
