import ShardStore.Address
/-!
The counters of the barrier protocol and of the graph-stage exchange.

Between barriers an agent counts the mutations it sends to each other agent (`Ledger`). At the
barrier every agent reports its counts to the synchronizer, which sums them per destination
(`Tally`) and, once all agents have reported, tells each agent how many mutations to expect.
An agent has arrived when it has received exactly as many as it was told (`Wait`), in either
order of the two events; it then tells the synchronizer, which ends the barrier once every agent
has arrived.

In the graph stage, agents report their vertices and then each round's outcome; a round is
complete when every agent has reported it, and the stage goes on while any report was active
(`Exchange`).
-/

namespace ShardStore

/-- Insert an address into an ascending list, once. -/
def Address.insertSorted (a : Address) : List Address → List Address
  | [] => [a]
  | b :: bs =>
    match Address.compare a b with
    | .lt => a :: b :: bs
    | .eq => b :: bs
    | .gt => b :: Address.insertSorted a bs

theorem Address.mem_insertSorted {a x : Address} :
    ∀ {l : List Address}, x ∈ Address.insertSorted a l ↔ x = a ∨ x ∈ l
  | [] => by simp [Address.insertSorted]
  | b :: bs => by
    unfold Address.insertSorted
    split
    · simp
    · rename_i h
      obtain rfl := Address.eq_of_compare_eq h
      simp
    · rw [List.mem_cons, Address.mem_insertSorted, List.mem_cons]
      exact or_left_comm

/-- Inserting into an ascending list keeps it ascending. -/
theorem Address.pairwise_insertSorted {a : Address} :
    ∀ {l : List Address}, l.Pairwise (Address.compare · · = .lt) →
      (Address.insertSorted a l).Pairwise (Address.compare · · = .lt)
  | [], _ => List.pairwise_singleton _ a
  | b :: bs, h => by
    unfold Address.insertSorted
    split
    · rename_i hab
      refine List.Pairwise.cons (fun y hy => ?_) h
      rcases List.mem_cons.mp hy with rfl | hy
      · exact hab
      · exact Address.compare_lt_trans hab (List.rel_of_pairwise_cons h hy)
    · exact h
    · rename_i hab
      refine List.Pairwise.cons (fun y hy => ?_) (Address.pairwise_insertSorted h.of_cons)
      rcases Address.mem_insertSorted.mp hy with rfl | hy
      · exact Address.compare_eq_gt_iff.mp hab
      · exact List.rel_of_pairwise_cons h hy

/-- Add to the count of an address in an address-ascending list, starting it at zero. Counts are
unsigned 64-bit words, so a sum past the largest one wraps. -/
def Address.bump (a : Address) (n : Nat) : List (Address × Nat) → List (Address × Nat)
  | [] => [(a, n % Nat.pow 2 64)]
  | (b, m) :: rest =>
    match Address.compare a b with
    | .lt => (a, n % Nat.pow 2 64) :: (b, m) :: rest
    | .eq => (b, (m + n) % Nat.pow 2 64) :: rest
    | .gt => (b, m) :: Address.bump a n rest

/-- Mutations sent per destination since the last barrier. -/
structure Ledger where
  counts : List (Address × Nat)
deriving Inhabited

namespace Ledger

/-- No sends. -/
def empty : Ledger := ⟨[]⟩

/-- Count one send. -/
def record (l : Ledger) (dest : Address) : Ledger := ⟨Address.bump dest 1 l.counts⟩

/-- All sends counted. -/
def total (l : Ledger) : Nat := l.counts.foldl (fun n (_, c) => n + c) 0

/-- The counts in address order; the ledger starts over. -/
def take (l : Ledger) : List (Address × Nat) × Ledger := (l.counts, empty)

end Ledger

/-- An agent's side of the barrier: mutations received, and how many to expect once known. -/
structure Wait where
  received : Nat
  expected : Option Nat
  arrived : Bool
deriving Inhabited

namespace Wait

/-- Nothing received, nothing known. -/
def empty : Wait := ⟨0, none, false⟩

/-- Arrive when the expected count is known and met; counting starts over. -/
def tryArrive (w : Wait) : Bool × Wait :=
  match w.expected with
  | some n => if w.received = n then (true, ⟨0, none, true⟩) else (false, w)
  | none => (false, w)

/-- Count one received mutation; whether the agent arrives. -/
def recordRecv (w : Wait) : Bool × Wait := tryArrive { w with received := w.received + 1 }

/-- Learn the expected count; whether the agent arrives. -/
def expect (w : Wait) (n : Nat) : Bool × Wait := tryArrive { w with expected := some n }

/-- The barrier ended. -/
def finish (w : Wait) : Wait := { w with arrived := false }

end Wait

/-- The synchronizer's side of the barrier. -/
structure Tally where
  reported : List Address
  expected : List (Address × Nat)
  arrived : List Address
  again : Bool
deriving Inhabited

namespace Tally

/-- No reports. -/
def empty : Tally := ⟨[], [], [], false⟩

/-- Take an agent's report; once every agent has reported, the count each agent should expect,
in the order of `agents`. -/
def report (t : Tally) (sender : Address) (again : Bool) (sent : List (Address × Nat))
    (agents : List Address) : Option (List (Address × Nat)) × Tally :=
  let expected := sent.foldl (fun acc (dest, n) => Address.bump dest n acc) t.expected
  let t : Tally := ⟨Address.insertSorted sender t.reported, expected, t.arrived, t.again || again⟩
  if t.reported.length < agents.length then (none, t)
  else
    (some (agents.map fun a => (a, ((t.expected.find? (·.1 = a)).map (·.2)).getD 0)),
      { t with reported := [], expected := [], arrived := [] })

/-- An agent arrived; whether all `n` have. -/
def arrive (t : Tally) (sender : Address) (n : Nat) : Bool × Tally :=
  let t := { t with arrived := Address.insertSorted sender t.arrived }
  if t.arrived.length < n then (false, t) else (true, { t with arrived := [] })

/-- Whether any agent asked for another round since the last time; the flag is cleared. -/
def takeAgain (t : Tally) : Bool × Tally := (t.again, { t with again := false })

end Tally

/-- The graph-stage reports. -/
structure Exchange where
  vertexReports : List Address
  rounds : List (Nat × List Address × Bool)
deriving Inhabited

namespace Exchange

/-- No reports. -/
def empty : Exchange := ⟨[], []⟩

/-- An agent sent its vertices; whether all `n` have. -/
def onVertices (x : Exchange) (sender : Address) (n : Nat) : Bool × Exchange :=
  let x := { x with vertexReports := Address.insertSorted sender x.vertexReports }
  (x.vertexReports.length = n, x)

/-- An agent reported a round. -/
def onCompute (x : Exchange) (sender : Address) (iter : Nat) (active : Bool) : Exchange :=
  match x.rounds.find? (·.1 = iter) with
  | some _ =>
    { x with rounds := x.rounds.map fun (i, rs, a) =>
        if i = iter then (i, Address.insertSorted sender rs, a || active) else (i, rs, a) }
  | none => { x with rounds := x.rounds ++ [(iter, [sender], active)] }

/-- Once `n` agents have reported a round: whether any was active; the round is forgotten. -/
def complete (x : Exchange) (iter : Nat) (n : Nat) : Option Bool × Exchange :=
  match x.rounds.find? (·.1 = iter) with
  | some (_, rs, a) =>
    if rs.length ≥ n then (some a, { x with rounds := x.rounds.filter (·.1 ≠ iter) }) else (none, x)
  | none => (none, x)

end Exchange

end ShardStore
