import ShardStore.Proofs.Wire.Canonical
/-!
Decoding is prefix-free.

A decoder reads its fields from the front of its input, and of what follows it asks only how
many bytes are left: a length prefix must announce no more than fit. `Stable d` says so of a
decoder `d`: once it reads a value from some bytes, it reads the same value from those bytes
with more after them and leaves the extra bytes untouched; and on a shorter prefix of those bytes
it either runs short (`Starved`: it fails with `truncated` and needed more bytes than were left)
or reads the same value and leaves less. Every field reader is stable, reading fields in sequence
keeps it, and so does reading a counted list; so every message, reply, entry and export reader
is stable.

A stable decoder run over a whole input is then prefix-free: no proper prefix of an input it
reads is read (each runs short), and an input it reads followed by more bytes is refused for
exactly those bytes. Two frames a decoder reads can therefore never be one the start of the
other.
-/

namespace ShardStore

namespace Decoder

/-- A decoding that ran out of input: it needed more bytes than were left. -/
def Starved {α : Type} (r : Except DecodeError α) : Prop :=
  ∃ needed left, left < needed ∧ r = .error (.truncated needed left)

/-- `d` reads a prefix of its input and asks of the rest only that it be long enough: when it
reads `x` from `bs` and leaves `r`, it reads `x` from `bs` with more bytes after it and leaves them
after `r`; and on a shorter prefix of `bs` it runs short, or reads `x` and leaves a shorter prefix
of `r`. -/
def Stable {α : Type} (d : Decoder α) : Prop :=
  ∀ bs x r, d bs = .ok (x, r) →
    (∀ e, d (bs ++ e) = .ok (x, r ++ e)) ∧
    ∀ p, p <+: bs → p.length < bs.length →
      Starved (d p) ∨ ∃ q, q <+: r ∧ q.length < r.length ∧ d p = .ok (x, q)

section Stable

variable {α β : Type} {d : Decoder α}

theorem Starved.bind {f : α → Decoder β} {p : Bytes} (h : Starved (d p)) :
    Starved ((d >>= f) p) := by
  obtain ⟨n, m, hlt, hd⟩ := h
  refine ⟨n, m, hlt, ?_⟩
  simp only [Bind.bind, StateT.bind, Except.bind, hd]

theorem stable_pure (x : α) : Stable (pure x : Decoder α) := by
  intro bs y r h
  simp only [pure_apply, Except.ok.injEq, Prod.mk.injEq] at h
  obtain ⟨rfl, rfl⟩ := h
  exact ⟨fun e => rfl, fun p hp hlen => .inr ⟨p, hp, hlen, rfl⟩⟩

theorem stable_fail (err : DecodeError) : Stable (fail err : Decoder α) := by
  intro bs x r h
  cases h

/-- Fields read in sequence: the first reads the same, so the rest sees the same bytes after it,
and a prefix that cuts into the rest leaves the rest a prefix of its own bytes. -/
theorem Stable.bind {f : α → Decoder β} (hd : Stable d) (hf : ∀ a, Stable (f a)) :
    Stable (d >>= f) := by
  intro bs y r h
  obtain ⟨a, r₁, ha, hrest⟩ := bind_eq_ok h
  obtain ⟨hdext, hdpre⟩ := hd bs a r₁ ha
  obtain ⟨hfext, hfpre⟩ := hf a r₁ y r hrest
  refine ⟨fun e => by rw [bind_ok (hdext e)]; exact hfext e, fun p hp hlen => ?_⟩
  rcases hdpre p hp hlen with hstarved | ⟨q, hq, hqlen, hdq⟩
  · exact .inl hstarved.bind
  · rw [bind_ok hdq]
    exact hfpre q hq hqlen

theorem stable_take (n : Nat) : Stable (take n) := by
  intro bs c r h
  simp only [take] at h
  split at h
  · rename_i hn
    simp only [Except.ok.injEq, Prod.mk.injEq] at h
    obtain ⟨rfl, rfl⟩ := h
    refine ⟨fun e => ?_, fun p hp hlen => ?_⟩
    · simp [take, List.take_append_of_le_length hn, List.drop_append_of_le_length hn]
      omega
    · by_cases hpn : n ≤ p.length
      · -- the prefix still holds the bytes taken
        obtain ⟨t, rfl⟩ := hp
        refine .inr ⟨p.drop n, ⟨t, by rw [List.drop_append_of_le_length hpn]⟩,
          by simp at hlen ⊢; omega, ?_⟩
        simp [take, hpn, List.take_append_of_le_length hpn]
      · exact .inl ⟨n, p.length, by omega, by simp [take, hpn]⟩
  · cases h

/-- A length check passes on every longer input, and on a shorter one runs short or passes. -/
theorem stable_check (n needed : Nat) :
    Stable (remaining >>= fun left =>
      if needed > left then fail (.truncated needed left) else pure n : Decoder Nat) := by
  have hrun : ∀ s : Bytes, (remaining >>= fun left =>
      if needed > left then fail (.truncated needed left) else pure n : Decoder Nat) s =
      if needed > s.length then .error (.truncated needed s.length) else .ok (n, s) := by
    intro s
    simp only [remaining, bind, StateT.bind, Except.bind]
    split <;> rfl
  intro bs x r h
  rw [hrun] at h
  split at h
  · cases h
  · rename_i hfit
    simp only [Except.ok.injEq, Prod.mk.injEq] at h
    obtain ⟨rfl, rfl⟩ := h
    refine ⟨fun e => ?_, fun p hp hlen => ?_⟩
    · rw [hrun, if_neg (by simp; omega)]
    · rw [hrun]
      split
      · rename_i hshort
        exact .inl ⟨needed, p.length, hshort, rfl⟩
      · exact .inr ⟨p, hp, hlen, rfl⟩

theorem stable_u8 : Stable u8 := (stable_take 1).bind fun _ => stable_pure _

theorem stable_u64 : Stable u64 := (stable_take 8).bind fun _ => stable_pure _

theorem stable_i64 : Stable i64 := (stable_take 8).bind fun _ => stable_pure _

theorem stable_bool : Stable bool := by
  refine stable_u8.bind fun b => ?_
  split
  · exact stable_pure _
  split
  · exact stable_pure _
  · exact stable_fail _

theorem stable_len (k : Nat) : Stable (len k) :=
  stable_u64.bind fun _ => stable_check _ _

theorem stable_bytes : Stable bytes := (stable_len 1).bind stable_take

theorem stable_string (field : String) : Stable (string field) := by
  refine stable_bytes.bind fun bs => ?_
  split
  · exact stable_pure _
  · exact stable_fail _

theorem stable_key : Stable key :=
  stable_u64.bind fun _ => stable_i64.bind fun _ => stable_i64.bind fun _ => stable_pure _

theorem stable_many (hd : Stable d) : ∀ n, Stable (many d n)
  | 0 => stable_pure _
  | n + 1 => hd.bind fun _ => (stable_many hd n).bind fun _ => stable_pure _

/-- A counted list, with what is built from it. -/
theorem stable_counted {k : Nat} {g : List α → Decoder β} (hd : Stable d)
    (hg : ∀ xs, Stable (g xs)) : Stable (len k >>= fun n => many d n >>= g) :=
  (stable_len k).bind fun n => (stable_many hd n).bind hg

theorem runAll_of_error {bs : Bytes} {err : DecodeError} (h : d bs = .error err) :
    runAll d bs = .error err := by
  simp only [runAll, bind, StateT.bind, Except.bind, h]

/-- A decoder that leaves bytes is refused over the whole input for as many bytes as it left. -/
theorem runAll_of_ok_ne_nil {bs r : Bytes} {x : α} (h : d bs = .ok (x, r)) (hr : r ≠ []) :
    runAll d bs = .error (.trailingBytes r.length) := by
  have hfin : finish r = .error (.trailingBytes r.length) := by
    simp only [finish, remaining, bind, StateT.bind, Except.bind]
    rw [if_neg (by simpa using hr)]
    rfl
  simp only [runAll, bind, StateT.bind, Except.bind, h, hfin]

end Stable

/-- Reading a whole input is prefix-free: every proper prefix of an input it reads runs short,
and an input it reads followed by more bytes is refused for exactly those bytes. -/
def PrefixFree {α : Type} (read : Bytes → Except DecodeError α) : Prop :=
  ∀ f x, read f = .ok x →
    (∀ p, p <+: f → p ≠ f →
      ∃ needed left, left < needed ∧ read p = .error (.truncated needed left)) ∧
    ∀ e : Bytes, e ≠ [] → read (f ++ e) = .error (.trailingBytes e.length)

/-- A stable decoder that must use everything is prefix-free: what it reads from a whole input
leaves nothing, so a proper prefix leaves it short, and extra bytes are all left over. -/
theorem Stable.prefixFree {α : Type} {d : Decoder α} (hd : Stable d) : PrefixFree (runAll d) := by
  intro f x h
  obtain ⟨hext, hpre⟩ := hd f x [] (runAll_eq_ok_nil h)
  refine ⟨fun p hp hne => ?_, fun e he => runAll_of_ok_ne_nil (hext e) (by simpa using he)⟩
  have hlen : p.length < f.length :=
    Nat.lt_of_le_of_ne hp.length_le fun heq => hne (hp.eq_of_length heq)
  rcases hpre p hp hlen with ⟨n, m, hlt, hdp⟩ | ⟨q, -, hq, -⟩
  · exact ⟨n, m, hlt, runAll_of_error hdp⟩
  · exact absurd hq (Nat.not_lt_zero _)

end Decoder

namespace Normalizer

open Decoder

/-- The normalizing readers read nothing of their own. -/
structure Stable (N : Normalizer) : Prop where
  address : ∀ v, Decoder.Stable (N.address v)
  tags : ∀ ts, Decoder.Stable (N.tags ts)

theorem lenient_stable : lenient.Stable := ⟨fun _ => stable_pure _, fun _ => stable_pure _⟩

theorem Stable.readAddress {N : Normalizer} (hN : N.Stable) : Decoder.Stable N.readAddress :=
  stable_u64.bind hN.address

end Normalizer

open Decoder

/-- An entry read from exactly the bytes its length announces. -/
theorem stable_sized {g : Bytes → Except DecodeError Entry} :
    Stable (do
      let size ← len 1
      let bs ← take size
      match g bs with
      | .ok e => pure e
      | .error err => fail err) :=
  (stable_len 1).bind fun n => (stable_take n).bind fun bs => by
    split
    · exact stable_pure _
    · exact stable_fail _

theorem Message.stable_wake : Stable Message.wakeDecoder := by
  refine stable_u8.bind fun b => ?_
  split
  · exact (stable_string _).bind fun _ => stable_pure _
  split
  · exact (stable_string _).bind fun _ => stable_pure _
  · exact stable_fail _

theorem Message.stable_vertexMessage : Stable Message.vertexMessageDecoder :=
  stable_u64.bind fun _ => stable_i64.bind fun _ => stable_bytes.bind fun _ => stable_pure _

section Readers

variable {N : Normalizer} (hN : N.Stable)
include hN

theorem Entry.stable_decoder : Stable (Entry.decoder N) :=
  stable_key.bind fun _ => stable_bytes.bind fun _ =>
    stable_counted (stable_string _) fun _ => (hN.tags _).bind fun _ => stable_pure _

theorem Message.stable_addresses : Stable (Message.addressesDecoder N) :=
  (stable_len 8).bind (stable_many hN.readAddress)

theorem Message.stable_body (t : UInt8) : Stable (Message.bodyDecoder t N) := by
  unfold Message.bodyDecoder
  split
  -- every known type byte reads its fields in sequence and builds the message; an unknown one
  -- fails
  all_goals
    repeat' first
      | with_reducible exact stable_pure _
      | with_reducible exact stable_fail _
      | with_reducible exact hN.readAddress
      | with_reducible exact stable_u64
      | with_reducible exact stable_i64
      | with_reducible exact stable_bool
      | with_reducible exact stable_bytes
      | with_reducible exact stable_string _
      | with_reducible exact stable_key
      | with_reducible exact stable_len _
      | with_reducible exact Message.stable_wake
      | with_reducible exact Message.stable_vertexMessage
      | with_reducible exact Message.stable_addresses hN
      | with_reducible exact Entry.stable_decoder hN
      | with_reducible apply stable_many
      | with_reducible apply Stable.bind
      | intro _

theorem Message.stable_decoder : Stable (Message.decoder N) :=
  stable_u8.bind fun t => Message.stable_body hN t

theorem Reply.stable_frame : Stable (do Reply.bodyDecoder (← u8) N) := by
  refine stable_u8.bind fun t => ?_
  unfold Reply.bodyDecoder
  split
  · exact stable_pure _
  · exact stable_u64.bind fun _ => stable_pure _
  · exact stable_bool.bind fun _ => stable_pure _
  · exact (stable_string _).bind fun _ => stable_pure _
  · exact stable_counted (by unfold Reply.entryDecoder; exact stable_sized) fun _ => stable_pure _
  · refine stable_bool.bind fun present => ?_
    cases present
    · exact stable_pure _
    · exact stable_bytes.bind fun _ => stable_pure _
  · exact (Message.stable_addresses hN).bind fun _ => stable_pure _
  · exact (stable_string _).bind fun _ => (stable_string _).bind fun _ => stable_pure _
  · exact stable_fail _

end Readers

/-- An export reads its count and then its entries, each from exactly its announced bytes. -/
theorem Files.stable_entries {N : Normalizer} :
    Stable (do let n ← len 8; many (Files.sizedEntry N) n) :=
  (stable_len 8).bind (stable_many (by unfold Files.sizedEntry; exact stable_sized))

/-- Decoding is prefix-free. For each of the four readers of a whole byte string (a message
frame, a reply frame, an entry and an export), when it reads a string, every proper prefix of
the string runs short, failing with `truncated` for more bytes than were left, and the string
followed by `k ≥ 1` more bytes is refused with `trailingBytes k`. -/
theorem decoding_is_prefix_free :
    PrefixFree (fun f => Message.decode f) ∧ PrefixFree (fun f => Reply.decode f) ∧
      PrefixFree (fun f => Entry.decode f) ∧ PrefixFree (fun f => Files.deserialize f) :=
  ⟨(Message.stable_decoder Normalizer.lenient_stable).prefixFree,
    (Reply.stable_frame Normalizer.lenient_stable).prefixFree,
    (Entry.stable_decoder Normalizer.lenient_stable).prefixFree,
    Files.stable_entries.prefixFree⟩

-- a frame that stops inside its first field runs short
example : Message.decode [0xa9, 1, 2] = .error (.truncated 8 2) := rfl

end ShardStore
