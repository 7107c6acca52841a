import ShardStore.Fault
/-!
Assertions kept by transitions that may fail part way.

Agents and their shards change by `EStateM` transitions: a run ends in a state whether it
finishes or fails, and the caller goes on from either, since a failure keeps what was done
before it. An `Assertion` is a property of states that carries a fact, and `Keeps A P x Q` says
that the transition `x`, started where `A` holds with the fact `P`, ends where `A` holds again,
with the fact `Q` of the value when it finished. Whatever else the caller knew, the frame `F`,
is kept as well, and that is what lets the rules below put transitions together the way a `do`
block does: a bind, a branch, a loop over a list, a handler for a failure.
-/

namespace ShardStore

/-- The state a transition ended in, finished or failed. -/
def endState {ε σ α : Type} : EStateM.Result ε σ α → σ
  | .ok _ s => s
  | .error _ s => s

/-- A property of states that carries a fact. It may promise the fact only in the states it is
about, and a weaker fact never asks more. -/
structure Assertion (σ : Type) where
  holds : Prop → σ → Prop
  weaken : ∀ {P Q : Prop} {s : σ}, (P → Q) → holds P s → holds Q s

namespace Assertion

variable {ε σ α β : Type} (A : Assertion σ)

/-- Where a run may end for `Keeps`: where `A` holds with the frame `F`, and with `Q` of the
value when the run finished. -/
def Ends (F : Prop) (Q : α → Prop) : EStateM.Result ε σ α → Prop
  | .ok a s => A.holds (F ∧ Q a) s
  | .error _ s => A.holds F s

/-- Started where `A` holds with `P`, the transition `x` ends where `A` holds again, with `Q` of
its value when it finished, and with every fact the caller framed around `P`. -/
def Keeps (P : Prop) (x : EStateM ε σ α) (Q : α → Prop) : Prop :=
  ∀ (F : Prop) (s : σ), A.holds (F ∧ P) s → A.Ends F Q (x s)

variable {A}

theorem Ends.mono {F F' : Prop} {Q Q' : α → Prop} {r : EStateM.Result ε σ α}
    (h : A.Ends F Q r) (hf : F → F') (hq : ∀ a, F → Q a → Q' a) : A.Ends F' Q' r := by
  cases r with
  | ok a s => exact A.weaken (fun h => ⟨hf h.1, hq a h.1 h.2⟩) h
  | error e s => exact A.weaken hf h

theorem Keeps.holds_end {P : Prop} {x : EStateM ε σ α} {Q : α → Prop} (h : A.Keeps P x Q)
    {s : σ} (hs : A.holds P s) : A.holds True (endState (x s)) := by
  have hx := h True s (A.weaken (fun hp => ⟨trivial, hp⟩) hs)
  cases hxs : x s with
  | ok a s' => rw [hxs] at hx; exact A.weaken (fun _ => trivial) hx
  | error e s' => rw [hxs] at hx; exact hx

theorem Keeps.conseq {P P' : Prop} {x : EStateM ε σ α} {Q Q' : α → Prop} (h : A.Keeps P x Q)
    (hp : P' → P) (hq : ∀ a, Q a → Q' a) : A.Keeps P' x Q' := fun F s hs =>
  (h F s (A.weaken (fun h => ⟨h.1, hp h.2⟩) hs)).mono id fun a _ => hq a

/-- A fact the transition does not need rides along to its end. -/
theorem Keeps.frame {P : Prop} {x : EStateM ε σ α} {Q : α → Prop} (h : A.Keeps P x Q)
    (R : Prop) : A.Keeps (R ∧ P) x (fun a => R ∧ Q a) := fun F s hs =>
  (h (F ∧ R) s (A.weaken (fun h => ⟨⟨h.1, h.2.1⟩, h.2.2⟩) hs)).mono (fun h => h.1)
    fun _ hf hq => ⟨hf.2, hq⟩

theorem keeps_pure {P : Prop} {Q : α → Prop} {a : α} (h : P → Q a) :
    A.Keeps P (pure a : EStateM ε σ α) Q := fun _ _ hs =>
  A.weaken (fun hp => ⟨hp.1, h hp.2⟩) hs

theorem keeps_throw {P : Prop} {Q : α → Prop} (e : ε) :
    A.Keeps P (throw e : EStateM ε σ α) Q := fun _ _ hs =>
  A.weaken (fun hp => hp.1) hs

theorem keeps_bind {P : Prop} {x : EStateM ε σ α} {f : α → EStateM ε σ β} {Q : α → Prop}
    {S : β → Prop} (hx : A.Keeps P x Q) (hf : ∀ a, A.Keeps (Q a) (f a) S) :
    A.Keeps P (x >>= f) S := by
  intro F s hs
  have h1 := hx F s hs
  show A.Ends F S (match x s with
    | .ok a s => f a s
    | .error e s => .error e s)
  cases hxs : x s with
  | ok a s' => rw [hxs] at h1; exact hf a F s' h1
  | error e s' => rw [hxs] at h1; exact h1

/-- Reading the state gives a state where the assertion holds. -/
theorem keeps_get {P : Prop} :
    A.Keeps P (get : EStateM ε σ σ) (fun s => P ∧ A.holds True s) :=
  fun _ _ hs => A.weaken (fun hp => ⟨hp.1, hp.2, A.weaken (fun _ => trivial) hs⟩) hs

theorem keeps_modify {P : Prop} {f : σ → σ}
    (hf : ∀ F s, A.holds (F ∧ P) s → A.holds (F ∧ P) (f s)) :
    A.Keeps P (modify f : EStateM ε σ PUnit) (fun _ => P) :=
  fun F s hs => hf F s hs

/-- A loop whose every turn keeps the assertion, and the loop's fact, keeps both. -/
theorem keeps_forM {P : Prop} {xs : List α} {f : α → EStateM ε σ PUnit}
    (hf : ∀ a ∈ xs, A.Keeps P (f a) (fun _ => P)) :
    A.Keeps P (xs.forM f) (fun _ => P) := by
  induction xs with
  | nil => exact keeps_pure id
  | cons a rest ih =>
    show A.Keeps P (f a >>= fun _ => rest.forM f) _
    exact keeps_bind (hf a (by simp)) fun _ => ih fun b hb => hf b (by simp [hb])

/-- A fold whose every turn keeps the assertion and carries `I` from one accumulator to the
next ends with `I` of the last. -/
theorem keeps_foldlM {P : Prop} {I : β → Prop} {xs : List α} {f : β → α → EStateM ε σ β}
    (hf : ∀ b, ∀ a ∈ xs, A.Keeps (P ∧ I b) (f b a) (fun c => P ∧ I c)) :
    ∀ b, A.Keeps (P ∧ I b) (xs.foldlM f b) (fun c => P ∧ I c) := by
  induction xs with
  | nil => exact fun b => keeps_pure id
  | cons a rest ih =>
    intro b
    rw [List.foldlM_cons]
    exact keeps_bind (hf b a (by simp)) fun c => ih (fun b' a' ha' => hf b' a' (by simp [ha'])) c

/-- A fold whose turns all keep the assertion and the fold's fact. -/
theorem keeps_foldlM_of {P : Prop} {xs : List α} {f : β → α → EStateM ε σ β}
    (hf : ∀ b, ∀ a ∈ xs, A.Keeps P (f b a) (fun _ => P)) (b : β) :
    A.Keeps P (xs.foldlM f b) (fun _ => P) :=
  (keeps_foldlM (I := fun _ => True)
      (fun b a ha => (hf b a ha).conseq (fun h => h.1) fun _ h => ⟨h, trivial⟩) b).conseq
    (fun h => ⟨h, trivial⟩) fun _ h => h.1

end Assertion

/-! ### Triples

Where a transition changes the state in a way that matters, an invariant is not enough: a
triple says what holds after, finished or failed, of a state that held a precondition. -/

/-- Where a run ends meets `Q` of its value and state when it finished, and `E` of the state
the failure left when it failed. -/
def Meets {ε σ α : Type} (Q : α → σ → Prop) (E : σ → Prop) : EStateM.Result ε σ α → Prop
  | .ok a s => Q a s
  | .error _ s => E s

/-- Started where `P` holds, the transition `x` ends where `Q` holds of its value if it finishes,
and where `E` holds if it fails part way. -/
def Triple {ε σ α : Type} (P : σ → Prop) (x : EStateM ε σ α) (Q : α → σ → Prop)
    (E : σ → Prop) : Prop :=
  ∀ s, P s → Meets Q E (x s)

namespace Triple

variable {ε σ α β : Type} {P P' : σ → Prop} {Q Q' : α → σ → Prop} {E E' : σ → Prop}

theorem meets_mono {r : EStateM.Result ε σ α} (h : Meets Q E r) (hq : ∀ a s, Q a s → Q' a s)
    (he : ∀ s, E s → E' s) : Meets Q' E' r := by
  cases r with
  | ok a s => exact hq a s h
  | error e s => exact he s h

theorem conseq {x : EStateM ε σ α} (h : Triple P x Q E) (hp : ∀ s, P' s → P s)
    (hq : ∀ a s, Q a s → Q' a s) (he : ∀ s, E s → E' s) : Triple P' x Q' E' :=
  fun s hs => meets_mono (h s (hp s hs)) hq he

theorem pure {a : α} (h : ∀ s, P s → Q a s) : Triple P (pure a : EStateM ε σ α) Q E := h

theorem throw {e : ε} (h : ∀ s, P s → E s) : Triple P (throw e : EStateM ε σ α) Q E := h

theorem bind {x : EStateM ε σ α} {f : α → EStateM ε σ β} {R : α → σ → Prop}
    {S : β → σ → Prop} (hx : Triple P x R E) (hf : ∀ a, Triple (R a) (f a) S E) :
    Triple P (x >>= f) S E := by
  intro s hs
  have h1 := hx s hs
  show Meets S E (match x s with
    | .ok a s => f a s
    | .error e s => .error e s)
  cases hxs : x s with
  | ok a s' => rw [hxs] at h1; exact hf a s' h1
  | error e s' => rw [hxs] at h1; exact h1

/-- Reading the state: the rest runs from the state that was read. -/
theorem get_bind {f : σ → EStateM ε σ β} {S : β → σ → Prop}
    (h : ∀ s, P s → Triple (· = s) (f s) S E) : Triple P (get >>= f) S E :=
  fun s hs => h s hs s rfl

theorem modify {f : σ → σ} {Q : PUnit → σ → Prop} (h : ∀ s, P s → Q ⟨⟩ (f s)) :
    Triple P (modify f : EStateM ε σ PUnit) Q E := h

/-- A failure the handler takes up: the handler starts where the failure left off. -/
theorem tryCatch {x : EStateM ε σ α} {h : ε → EStateM ε σ α} {R : σ → Prop}
    (hx : Triple P x Q R) (hh : ∀ e, Triple R (h e) Q E) : Triple P (tryCatch x h) Q E := by
  intro s hs
  have h1 := hx s hs
  show Meets Q E (EStateM.tryCatch x h s)
  unfold EStateM.tryCatch
  cases hxs : x s with
  | ok a s' => rw [hxs] at h1; exact h1
  | error e s' => rw [hxs] at h1; exact hh e s' h1

/-- A loop over a list, with a precondition for each part of the list done so far. -/
theorem forM {f : α → EStateM ε σ PUnit} (I : List α → σ → Prop)
    (hf : ∀ done a, Triple (I done) (f a) (fun _ => I (done ++ [a])) E) :
    ∀ (xs done : List α), Triple (I done) (xs.forM f) (fun _ => I (done ++ xs)) E := by
  intro xs
  induction xs with
  | nil => exact fun done => Triple.pure fun s hs => by rwa [List.append_nil]
  | cons a rest ih =>
    intro done
    show Triple _ (f a >>= fun _ => rest.forM f) _ _
    refine Triple.bind (hf done a) fun _ => (ih (done ++ [a])).conseq (fun _ h => h)
      (fun _ s hs => ?_) fun _ h => h
    rwa [List.append_assoc, List.singleton_append] at hs

/-- A fold over a list, with a precondition for each part of the list done so far and the
accumulator reached there. -/
theorem foldlM {f : β → α → EStateM ε σ β} (I : List α → β → σ → Prop)
    (hf : ∀ done b a, Triple (I done b) (f b a) (fun c => I (done ++ [a]) c) E) :
    ∀ (xs done : List α) (b : β),
      Triple (I done b) (xs.foldlM f b) (fun c => I (done ++ xs) c) E := by
  intro xs
  induction xs with
  | nil => exact fun done b => Triple.pure fun s hs => by rwa [List.append_nil]
  | cons a rest ih =>
    intro done b
    rw [List.foldlM_cons]
    refine Triple.bind (hf done b a) fun c => (ih (done ++ [a]) c).conseq (fun _ h => h)
      (fun _ s hs => ?_) fun _ h => h
    rwa [List.append_assoc, List.singleton_append] at hs

end Triple

/-- A transition that keeps an assertion, as a triple: whatever the frame, it holds after as
before, with the fact of the value where the transition finishes. -/
theorem Assertion.Keeps.triple {ε σ α : Type} {A : Assertion σ} {P : Prop}
    {x : EStateM ε σ α} {Q : α → Prop} (h : A.Keeps P x Q) (F : Prop) :
    Triple (A.holds (F ∧ P)) x (fun a => A.holds (F ∧ Q a)) (A.holds F) := by
  intro s hs
  have hx := h F s hs
  cases hxs : x s with
  | ok a s' => rw [hxs] at hx; exact hx
  | error e s' => rw [hxs] at hx; exact hx

end ShardStore
