import ShardStore.Proofs.Shard.Rounds
import ShardStore.Shard.Alone
/-!
Processing alone, part by part.

A shard with no single-entry filter, nothing held and no subscription waiting runs one
single-entry round, which makes nothing and leaves the shard as it was. Processing with the
graph stage is then its parts in turn: the single-entry rounds, setup of an engine over the
store's vertices, the graph rounds, and the staging and closing of what they made; when each
part goes through, so does the whole, and it reports the rounds of the first part, the counter
the graph rounds left and the number of mutations they made, with the engine cleared.
-/

namespace ShardStore

namespace Shard

variable {s : Shard}

/-- A shard with no single-entry filter, on a store without a limit, with nothing held: a round
makes nothing, so processing runs one round and changes nothing. -/
theorem process_idle (hl : s.store.limit = none) (hw : s.waiters.WellFormed)
    (he : s.staged = Staged.empty) (hs : s.filters.singles = []) (fuel : Nat) :
    s.process fuel = .ok 1 s := by
  have hset : s.Settled := fun _ _ f hf => by simp [hs] at hf
  have hrun := processOnce_run hl hw he (sweep_settled hset _) (fun m hm => by cases hm)
  rw [List.foldl_nil, afterClose_empty he] at hrun
  cases fuel with
  | zero => rfl
  | succ fuel =>
    show process.go 1 (fuel + 1) s = _
    simp only [process.go]
    rw [bind_run hrun]
    rfl

end Shard

namespace LocalDb

theorem bind_run {α β : Type} {x : EStateM Fault LocalDb α} {f : α → EStateM Fault LocalDb β}
    {d d' : LocalDb} {a : α} (h : x d = .ok a d') : (x >>= f) d = f a d' := by
  show EStateM.bind x f d = _
  simp only [EStateM.bind, h]

theorem get_bind {α : Type} (f : LocalDb → EStateM Fault LocalDb α) (d : LocalDb) :
    (get >>= f) d = f d d := rfl

theorem set_bind {α : Type} (f : PUnit → EStateM Fault LocalDb α) (d d' : LocalDb) :
    (set d' >>= f) d = f () d' := rfl

theorem onShard_run {α : Type} {op : ShardOp α} {d : LocalDb} {x : α} {s : Shard}
    (h : op d.shard = .ok x s) : onShard op d = .ok x { d with shard := s } := by
  simp only [onShard, h]

/-- With the graph stage switched off, processing is its single-entry rounds. -/
theorem process_skipped {d : LocalDb} {n : Nat} {s : Shard}
    (hshard : Shard.process 100000 d.shard = .ok n s) (hskip : d.skipGroups = true) (fuel : Nat) :
    process fuel d = .ok ⟨n, 0, 0⟩ { d with shard := s } := by
  unfold process
  rw [LocalDb.bind_run (onShard_run hshard)]
  dsimp only
  rw [get_bind]
  simp only [hskip, Bool.true_or, if_true]
  rfl

/-- Processing when each part goes through: the single-entry rounds, setup, the graph rounds,
and staging and closing what they made. -/
theorem process_eq {d : LocalDb} {fuel n : Nat} {s s' s'' : Shard} {e e' : Engine} {c : Nat}
    {effects : Array Mutation} {closed : Nat}
    (hshard : Shard.process 100000 d.shard = .ok n s) (hskip : d.skipGroups = false)
    (hgroups : s.filters.groups ≠ [])
    (hsetup : (d.engine.addVertices (Engine.localVertices s.store)).setup s.store s.filters.groups
      (Lookup.ofStore s.store) = (e, .ok c))
    (hrounds : rounds (Lookup.ofStore s.store) e #[] fuel = (e', effects, none))
    (hstage : effects.toList.forM Shard.stage s = .ok () s')
    (hclose : Shard.stageClose s' = .ok closed s'') :
    process fuel d =
      .ok ⟨n, e'.iter, effects.size⟩ { d with shard := s'', engine := Engine.empty } := by
  unfold process
  rw [LocalDb.bind_run (onShard_run hshard)]
  dsimp only
  rw [get_bind]
  dsimp only
  have hg : s.filters.groups.isEmpty = false := List.isEmpty_eq_false_iff.mpr hgroups
  simp only [hskip, hg, Bool.false_or, Bool.false_eq_true, if_false, hsetup, hrounds]
  -- the engine is set after setup, after the rounds and at teardown
  rw [set_bind, set_bind, set_bind, LocalDb.bind_run (onShard_run hstage),
    LocalDb.bind_run (onShard_run hclose)]
  rfl

end LocalDb

end ShardStore
