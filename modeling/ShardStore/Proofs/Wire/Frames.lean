import ShardStore.Wire.Message
/-!
What a frame can decode to.

A frame's first byte names its message's type, and the keys of a mutation are its first fields,
each read at its fixed width. So whatever the rest of a frame holds, a message decoded from it
has the type its first byte names, and a frame written for a mutation decodes, if at all, to a
mutation of the same kind routed by the same key. A vertex list is the last field of its frame,
so a vertex frame decodes, if at all, to a prefix of the vertices it was written with.

That is all the routing invariants of a mesh need from the wire: what an agent is sent is what
it is handed.
-/

namespace ShardStore

namespace Address

/-- The serial holds the address in its low 48 bits: the host above the slot. -/
theorem toNat_serial (a : Address) : a.serial.toNat = a.ip.toNat * 65536 + a.slot.toNat := by
  have hip := a.ip.toNat_lt
  have hslot := a.slot.toNat_lt
  have h16 : ((16 : UInt64).toNat % 64) = 16 := rfl
  have hlt : a.ip.toNat <<< 16 < 2 ^ 64 := by rw [Nat.shiftLeft_eq]; omega
  rw [serial, UInt64.toNat_or, UInt64.toNat_shiftLeft, UInt32.toNat_toUInt64,
    UInt16.toNat_toUInt64, h16, Nat.mod_eq_of_lt hlt, ← Nat.shiftLeft_add_eq_or_of_lt hslot,
    Nat.shiftLeft_eq]

/-- The address in a word: the host from bits 16 to 47, the slot from the low 16 bits. -/
theorem toNat_ofSerial (v : UInt64) :
    (ofSerial v).ip.toNat = v.toNat / 65536 % 4294967296 ∧
      (ofSerial v).slot.toNat = v.toNat % 65536 := by
  have hmask : ((1 : UInt64) <<< 49 - 1).toNat = 2 ^ 49 - 1 := by decide
  have hkeep : (v &&& agentMask).toNat = v.toNat % 2 ^ 49 := by
    simp only [agentMask, virtualShift]
    rw [UInt64.toNat_and, hmask, Nat.and_two_pow_sub_one_eq_mod]
  simp only [ofSerial]
  rw [UInt64.toNat_toUInt32, UInt64.toNat_shiftRight, UInt64.toNat_toUInt16, hkeep,
    Nat.shiftRight_eq_div_pow]
  simp only [UInt64.reduceToNat, Nat.reduceMod]
  omega

theorem ext_toNat {a b : Address} (hip : a.ip.toNat = b.ip.toNat)
    (hslot : a.slot.toNat = b.slot.toNat) : a = b := by
  obtain ⟨ip, slot⟩ := a
  obtain ⟨ip', slot'⟩ := b
  rw [show ip = ip' from UInt32.toNat_inj.mp hip, show slot = slot' from UInt16.toNat_inj.mp hslot]

/-- An address read back from its serial is the address: the serial keeps the address's 48 bits
below the mask. -/
theorem ofSerial_serial (a : Address) : ofSerial a.serial = a := by
  have hip := a.ip.toNat_lt
  have hslot := a.slot.toNat_lt
  obtain ⟨hip', hslot'⟩ := toNat_ofSerial a.serial
  rw [toNat_serial] at hip' hslot'
  exact ext_toNat (by omega) (by omega)

end Address

namespace Decoder

@[simp] theorem pure_apply {α : Type} (x : α) (s : Bytes) : (pure x : Decoder α) s = .ok (x, s) :=
  rfl

/-- Every value the decoder returns, from any input, satisfies `P`. -/
@[irreducible] def Yields {α : Type} (P : α → Prop) (d : Decoder α) : Prop :=
  ∀ s x r, d s = .ok (x, r) → P x

theorem Yields.elim {α : Type} {P : α → Prop} {d : Decoder α} (h : Yields P d) {s r : Bytes}
    {x : α} (hd : d s = .ok (x, r)) : P x := by
  unfold Yields at h
  exact h s x r hd

theorem yields_pure {α : Type} {P : α → Prop} {x : α} (h : P x) : Yields P (pure x) := by
  unfold Yields
  intro s y r hd
  cases hd
  exact h

theorem yields_bind {α β : Type} {P : β → Prop} {d : Decoder α} {f : α → Decoder β}
    (h : ∀ a, Yields P (f a)) : Yields P (d >>= f) := by
  unfold Yields at h ⊢
  intro s y r hd
  simp only [bind, StateT.bind, Except.bind] at hd
  split at hd
  · cases hd
  · exact h _ _ _ _ hd

theorem yields_fail {α : Type} {P : α → Prop} (e : DecodeError) :
    Yields P (fail e : Decoder α) := by
  unfold Yields
  intro s y r hd
  cases hd

theorem bind_ok {α β : Type} {d : Decoder α} {f : α → Decoder β} {s r : Bytes} {a : α}
    (h : d s = .ok (a, r)) : (d >>= f) s = f a r := by
  simp only [bind, StateT.bind, Except.bind, h]

theorem bind_eq_ok {α β : Type} {d : Decoder α} {f : α → Decoder β} {s : Bytes} {y : β × Bytes}
    (h : (d >>= f) s = .ok y) : ∃ a r, d s = .ok (a, r) ∧ f a r = .ok y := by
  simp only [bind, StateT.bind, Except.bind] at h
  split at h
  · cases h
  · exact ⟨_, _, by assumption, h⟩

/-- A value built from what a first reader yields: whatever the first reader yields holds of
the part the rest is built from. -/
theorem Yields.bind_of {α β : Type} {Q : α → Prop} {P : β → Prop} {d : Decoder α}
    {f : α → Decoder β} (hd : Yields Q d) (hf : ∀ a, Q a → Yields P (f a)) :
    Yields P (d >>= f) := by
  unfold Yields at hd hf ⊢
  intro s y r h
  obtain ⟨a, r₁, ha, hrest⟩ := bind_eq_ok h
  exact hf a (hd s a r₁ ha) r₁ y r hrest

theorem Yields.mono {α : Type} {Q P : α → Prop} {d : Decoder α} (hd : Yields Q d)
    (h : ∀ x, Q x → P x) : Yields P d := by
  unfold Yields at hd ⊢
  exact fun s x r hx => h x (hd s x r hx)

theorem take_append (bs rest : Bytes) : take bs.length (bs ++ rest) = .ok (bs, rest) := by
  simp [take]

theorem u8_cons (b : UInt8) (rest : Bytes) : u8 (b :: rest) = .ok (b, rest) := by
  simp [u8, take, bind, StateT.bind, Except.bind]

/-- A byte read off the front was the frame's first byte. -/
theorem u8_eq_ok {s r : Bytes} {b : UInt8} (h : u8 s = .ok (b, r)) : s = b :: r := by
  cases s with
  | nil => simp [u8, take, bind, StateT.bind, Except.bind] at h
  | cons c rest =>
    rw [u8_cons] at h
    cases h
    rfl

theorem toU64_ofU64 (x : UInt64) (rest : Bytes) : Bytes.toU64 (Bytes.ofU64 x ++ rest) = x := by
  have h8 : (Bytes.ofU64 x).length = 8 := Bytes.length_le 8 _
  rw [Bytes.toU64, List.take_left' h8, Bytes.ofU64, Bytes.leValue_le]
  rw [Nat.mod_eq_of_lt (by simpa using x.toNat_lt_size)]
  simp

theorem u64_ofU64 (x : UInt64) (rest : Bytes) : u64 (Bytes.ofU64 x ++ rest) = .ok (x, rest) := by
  have ht := take_append (Bytes.ofU64 x) rest
  rw [show (Bytes.ofU64 x).length = 8 from Bytes.length_le 8 _] at ht
  have hx : Bytes.toU64 (Bytes.ofU64 x) = x := by simpa using toU64_ofU64 x []
  rw [u64, bind_ok ht]
  simp only [pure_apply, hx]

theorem i64_ofI64 (x : Int64) (rest : Bytes) : i64 (Bytes.ofI64 x ++ rest) = .ok (x, rest) := by
  have ht := take_append (Bytes.ofI64 x) rest
  rw [show (Bytes.ofI64 x).length = 8 from Bytes.length_le 8 _] at ht
  have hx : Bytes.toU64 (Bytes.ofU64 x.toUInt64) = x.toUInt64 := by simpa using toU64_ofU64 _ []
  rw [i64, bind_ok ht]
  simp [hx, Bytes.toI64, Bytes.ofI64]

theorem key_toBytes (k : Key) (rest : Bytes) : key (k.toBytes ++ rest) = .ok (k, rest) := by
  simp only [Key.toBytes, List.append_assoc, key, bind_ok (u64_ofU64 _ _),
    bind_ok (i64_ofI64 _ _)]
  rfl

theorem address_ofU64 (x : UInt64) (rest : Bytes) :
    address (Bytes.ofU64 x ++ rest) = .ok (Address.ofSerial x, rest) := by
  rw [address, bind_ok (u64_ofU64 x rest)]
  rfl

theorem address_encode (a : Address) (rest : Bytes) :
    address (Encode.address a ++ rest) = .ok (a, rest) := by
  rw [Encode.address, address_ofU64, Address.ofSerial_serial]

theorem bool_encode (b : Bool) (rest : Bytes) : bool (Encode.bool b ++ rest) = .ok (b, rest) := by
  cases b <;> rfl

/-- A length prefix read from a written word is that word, and only the word is consumed. -/
theorem len_ofU64 {k : Nat} {x : UInt64} {rest r : Bytes} {n : Nat}
    (h : len k (Bytes.ofU64 x ++ rest) = .ok (n, r)) : n = x.toNat ∧ r = rest := by
  rw [len, bind_ok (u64_ofU64 x rest)] at h
  simp only [remaining, bind, StateT.bind, Except.bind] at h
  split at h
  · simp [fail] at h
  · simp only [pure_apply, Except.ok.injEq, Prod.mk.injEq] at h
    exact ⟨h.1.symm, h.2.symm⟩

/-- `finish` passes only at the end of the input. -/
theorem eq_nil_of_finish {s r : Bytes} {u : Unit} (h : finish s = .ok (u, r)) : s = [] := by
  simp only [finish, remaining, bind, StateT.bind, Except.bind] at h
  split at h
  · exact List.eq_nil_of_length_eq_zero (by assumption)
  · cases h

/-- A decoder that must use everything returned what the decoder read, and used it all. -/
theorem runAll_eq_ok_nil {α : Type} {d : Decoder α} {bs : Bytes} {x : α}
    (h : runAll d bs = .ok x) : d bs = .ok (x, []) := by
  simp only [runAll, bind, Except.bind] at h
  split at h
  · cases h
  · rename_i p hp
    obtain ⟨a, r1, hd, hrest⟩ := bind_eq_ok hp
    obtain ⟨u, r2, hfin, hpure⟩ := bind_eq_ok hrest
    simp only [pure_apply, Except.ok.injEq] at hpure
    simp only [pure, Except.pure, Except.ok.injEq] at h
    subst hpure
    cases h
    rwa [← eq_nil_of_finish hfin]

theorem runAll_eq_ok {α : Type} {d : Decoder α} {bs : Bytes} {x : α} (h : runAll d bs = .ok x) :
    ∃ r, d bs = .ok (x, r) :=
  ⟨[], runAll_eq_ok_nil h⟩

/-- Counted elements read from their written forms come out as a prefix of what was written. -/
theorem many_flatMap {α : Type} {d : Decoder α} {enc : α → Bytes}
    (hd : ∀ x r, d (enc x ++ r) = .ok (x, r)) (hnil : ∀ x r, d [] ≠ .ok (x, r)) :
    ∀ (n : Nat) (xs : List α) {ys : List α} {r : Bytes},
      many d n (xs.flatMap enc) = .ok (ys, r) → ys = xs.take n := by
  intro n
  induction n with
  | zero =>
    intro xs ys r h
    simp only [many, pure_apply, Except.ok.injEq, Prod.mk.injEq] at h
    simp [h.1]
  | succ n ih =>
    intro xs ys r h
    obtain ⟨x, r1, hx, hrest⟩ := bind_eq_ok h
    cases xs with
    | nil => exact absurd hx (hnil x r1)
    | cons y xs =>
      rw [List.flatMap_cons, hd] at hx
      cases hx
      obtain ⟨zs, r2, hzs, hpure⟩ := bind_eq_ok hrest
      simp only [pure_apply, Except.ok.injEq, Prod.mk.injEq] at hpure
      rw [← hpure.1, ih xs hzs, List.take_succ_cons]

end Decoder

namespace Message

/-- A message's type byte is the byte it was decoded under. -/
theorem bodyDecoder_typeByte (t : UInt8) {N : Normalizer} :
    Decoder.Yields (·.typeByte = t) (bodyDecoder t N) := by
  unfold bodyDecoder
  split
  -- a known type byte: read the fields, then build a message of that type
  all_goals repeat (apply Decoder.yields_bind; intro _)
  all_goals try exact Decoder.yields_pure rfl
  -- an unknown one fails
  exact Decoder.yields_fail _

/-- A decoded message has the type its frame's first byte names. -/
theorem decode_typeByte {f : Bytes} {m : Message} {N : Normalizer} (h : decode f N = .ok m) :
    ∃ rest, f = m.typeByte :: rest := by
  obtain ⟨r, hd⟩ := Decoder.runAll_eq_ok h
  obtain ⟨b, rest, hb, hbody⟩ := Decoder.bind_eq_ok hd
  rw [Decoder.u8_eq_ok hb, (bodyDecoder_typeByte b).elim hbody]
  exact ⟨rest, rfl⟩

/-- The mutation a message carries, if it carries one. -/
def mutation? : Message → Option Mutation
  | addEntry e => some (.addEntry e)
  | addTag k t => some (.addTag k t)
  | removeTag k t => some (.removeTag k t)
  | updateValue k v => some (.updateValue k v)
  | subscribe s w r => some (.subscribe s w r)
  | _ => none

@[simp] theorem mutation?_toMessage (mu : Mutation) : mu.toMessage.mutation? = some mu := by
  cases mu <;> rfl

theorem eq_toMessage_of_mutation? {m : Message} {mu : Mutation} (h : m.mutation? = some mu) :
    m = mu.toMessage := by
  cases m <;> simp [mutation?] at h <;> subst h <;> rfl

/-- The fields after a key, whatever they are, keep the key. -/
theorem key_then {β : Type} {f : Key → Decoder β} {P : β → Prop} (k : Key) (rest : Bytes)
    (hf : Decoder.Yields P (f k)) {y : β} {r : Bytes}
    (h : (Decoder.key >>= f) (k.toBytes ++ rest) = .ok (y, r)) : P y := by
  rw [Decoder.bind_ok (Decoder.key_toBytes k rest)] at h
  exact hf.elim h

/-- A frame's body is decoded under its first byte. -/
theorem decoder_cons (t : UInt8) (body : Bytes) :
    decoder .lenient (t :: body) = bodyDecoder t .lenient body := by
  rw [decoder, Decoder.bind_ok (Decoder.u8_cons _ _)]

theorem bodyDecoder_addEntry :
    bodyDecoder 0xa4 = (Entry.decoder >>= fun e => pure (addEntry e)) := rfl

theorem bodyDecoder_addTag : bodyDecoder 0xa9 = (Decoder.key >>= fun k =>
    Decoder.string "tag" >>= fun t => pure (addTag k t)) := rfl

theorem bodyDecoder_removeTag : bodyDecoder 0xb6 = (Decoder.key >>= fun k =>
    Decoder.string "tag" >>= fun t => pure (removeTag k t)) := rfl

theorem bodyDecoder_updateValue : bodyDecoder 0xb7 = (Decoder.key >>= fun k =>
    Decoder.bytes >>= fun v => pure (updateValue k v)) := rfl

theorem bodyDecoder_subscribe : bodyDecoder 0xb8 = (Decoder.key >>= fun s =>
    Decoder.key >>= fun w => wakeDecoder >>= fun r => pure (subscribe s w r)) := rfl

/-- A frame written for a mutation decodes, if at all, to a mutation of the same kind routed by
the same key. -/
theorem decode_mutation {mu : Mutation} {m : Message} (h : decode mu.toMessage.encode = .ok m) :
    ∃ mu' : Mutation, m = mu'.toMessage ∧ mu'.routeKey = mu.routeKey ∧
      (∀ e, mu = .addEntry e → ∃ e', mu' = .addEntry e') := by
  obtain ⟨r, hd⟩ := Decoder.runAll_eq_ok h
  cases mu with
  | addEntry e =>
    rw [show (Mutation.addEntry e).toMessage.encode = 0xa4 :: (e.key.toBytes ++
      (Encode.bytes e.value ++ Encode.len e.tags.size ++ e.tags.toList.flatMap Encode.string))
      by simp [Mutation.toMessage, encode, typeByte, payload, Entry.encode, Encode.key],
      decoder_cons, bodyDecoder_addEntry] at hd
    obtain ⟨e', r', he, hpure⟩ := Decoder.bind_eq_ok hd
    have hkey : e'.key = e.key := key_then (P := fun d : Entry => d.key = e.key) e.key _
      (by repeat (apply Decoder.yields_bind; intro _)
          exact Decoder.yields_pure rfl) he
    simp only [Decoder.pure_apply, Except.ok.injEq, Prod.mk.injEq] at hpure
    exact ⟨.addEntry e', hpure.1.symm, hkey, fun _ _ => ⟨e', rfl⟩⟩
  | addTag k t =>
    rw [show (Mutation.addTag k t).toMessage.encode = 0xa9 :: (k.toBytes ++ Encode.string t)
      from rfl, decoder_cons, bodyDecoder_addTag] at hd
    obtain ⟨t', rfl⟩ := key_then (P := fun m' => ∃ t', m' = addTag k t') k _
      (Decoder.yields_bind fun _ => Decoder.yields_pure ⟨_, rfl⟩) hd
    exact ⟨.addTag k t', rfl, rfl, fun _ h => by cases h⟩
  | removeTag k t =>
    rw [show (Mutation.removeTag k t).toMessage.encode = 0xb6 :: (k.toBytes ++ Encode.string t)
      from rfl, decoder_cons, bodyDecoder_removeTag] at hd
    obtain ⟨t', rfl⟩ := key_then (P := fun m' => ∃ t', m' = removeTag k t') k _
      (Decoder.yields_bind fun _ => Decoder.yields_pure ⟨_, rfl⟩) hd
    exact ⟨.removeTag k t', rfl, rfl, fun _ h => by cases h⟩
  | updateValue k v =>
    rw [show (Mutation.updateValue k v).toMessage.encode = 0xb7 :: (k.toBytes ++ Encode.bytes v)
      from rfl, decoder_cons, bodyDecoder_updateValue] at hd
    obtain ⟨v', rfl⟩ := key_then (P := fun m' => ∃ v', m' = updateValue k v') k _
      (Decoder.yields_bind fun _ => Decoder.yields_pure ⟨_, rfl⟩) hd
    exact ⟨.updateValue k v', rfl, rfl, fun _ h => by cases h⟩
  | subscribe s w wk =>
    rw [show (Mutation.subscribe s w wk).toMessage.encode =
      0xb8 :: (s.toBytes ++ (w.toBytes ++ encodeWake wk)) by
        simp [Mutation.toMessage, encode, typeByte, payload, Encode.key],
      decoder_cons, bodyDecoder_subscribe, Decoder.bind_ok (Decoder.key_toBytes s _)] at hd
    obtain ⟨wk', rfl⟩ := key_then (P := fun m' => ∃ wk', m' = subscribe s w wk') w _
      (Decoder.yields_bind fun _ => Decoder.yields_pure ⟨_, rfl⟩) hd
    exact ⟨.subscribe s w wk', rfl, rfl, fun _ h => by cases h⟩

/-- A frame written for a message decodes, if at all, to a message of the same type. -/
theorem typeByte_of_decode_encode {m m' : Message} (h : decode m.encode = .ok m') :
    m'.typeByte = m.typeByte := by
  obtain ⟨rest, hrest⟩ := decode_typeByte h
  exact (List.cons.inj hrest).1.symm

/-- Whether a message changes whom an agent knows: a handshake, a heartbeat, a request for
one, or a new neighbour. -/
def changesMembership : Message → Bool
  | handshake _ | heartbeat _ | wantHeartbeat _ | addNeighbor _ => true
  | _ => false

/-- The type bytes of the messages that change whom an agent knows. -/
def membershipByte (t : UInt8) : Bool := t == 0xa0 || t == 0xa2 || t == 0xfe || t == 0xff

/-- The type bytes of the messages that carry a write. -/
def writeByte (t : UInt8) : Bool := t == 0xa4 || t == 0xa9 || t == 0xb6 || t == 0xb7 || t == 0xb8

theorem changesMembership_eq (m : Message) : m.changesMembership = membershipByte m.typeByte := by
  cases m <;> rfl

theorem isSome_mutation?_eq (m : Message) : m.mutation?.isSome = writeByte m.typeByte := by
  cases m <;> rfl

theorem eq_addEntry_of_typeByte {m : Message} (h : m.typeByte = 0xa4) : ∃ e, m = addEntry e := by
  cases m <;> simp_all [typeByte]

theorem eq_algVertices_of_typeByte {m : Message} (h : m.typeByte = 0xd0) :
    ∃ a vs, m = algVertices a vs := by
  cases m <;> simp_all [typeByte]

/-- A vertex as its frame writes it. -/
def encodeVertex (p : GraphId × VertexId) : Bytes := Bytes.ofU64 p.1 ++ Bytes.ofI64 p.2

theorem bodyDecoder_algVertices : bodyDecoder 0xd0 = (Decoder.address >>= fun a =>
    Decoder.len 16 >>= fun n => Decoder.many (do
      let g ← Decoder.u64
      let v ← Decoder.i64
      pure (g, v)) n >>= fun vs => pure (algVertices a vs)) := rfl

/-- A frame written for a list of vertices decodes, if at all, to a prefix of that list. -/
theorem decode_algVertices {a : Address} {vs : List (GraphId × VertexId)} {m : Message}
    (h : decode (algVertices a vs).encode = .ok m) :
    ∃ n, m = algVertices a (vs.take n) := by
  obtain ⟨r, hd⟩ := Decoder.runAll_eq_ok h
  rw [show (algVertices a vs).encode = 0xd0 :: (Bytes.ofU64 a.serial ++
      (Bytes.ofU64 (UInt64.ofNat vs.length) ++ vs.flatMap encodeVertex)) by
        simp [encode, typeByte, payload, Encode.address, Encode.len]; rfl,
    decoder_cons, bodyDecoder_algVertices, Decoder.bind_ok (Decoder.address_ofU64 _ _),
    Address.ofSerial_serial] at hd
  obtain ⟨n, r1, hn, hrest⟩ := Decoder.bind_eq_ok hd
  have hr1 : r1 = vs.flatMap encodeVertex := (Decoder.len_ofU64 hn).2
  subst hr1
  obtain ⟨ys, r2, hys, hpure⟩ := Decoder.bind_eq_ok hrest
  simp only [Decoder.pure_apply, Except.ok.injEq, Prod.mk.injEq] at hpure
  have hprefix : ys = vs.take n := by
    refine @Decoder.many_flatMap _ _ encodeVertex ?_ ?_ n vs _ _ hys
    · intro p rest
      simp only [encodeVertex, List.append_assoc, Decoder.bind_ok (Decoder.u64_ofU64 _ _),
        Decoder.bind_ok (Decoder.i64_ofI64 _ _)]
      rfl
    · intro p rest hnil
      simp [Decoder.u64, Decoder.take, bind, StateT.bind, Except.bind] at hnil
  exact ⟨n, by rw [← hpure.1, hprefix]⟩

end Message

end ShardStore