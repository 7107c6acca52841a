import ShardStore.Proofs.Wire.RoundTrip
import ShardStore.Store.Files
/-!
The frames the decoders read back exactly.

Decoding normalizes two kinds of field. An address word names its address by its low 48 bits,
and the reader drops the others; a tag list is read as the set of its tags, so repeats go and
the order is lost. A frame that sets any of bits 48 to 63 of an address word, or that lists the
tags of an entry other than strictly ascending, therefore decodes to a value whose frame is
another byte string. These are the only two ways: a decoded value is written back as the very
bytes it was read from exactly when they hold neither.

`Normalizer.strict` is the reading that refuses both forms and reads every other field as the
program does. `Exact p d enc` says that whatever `d` reads, it read from its written form: the
bytes `p` written before it and the bytes it consumed are together `enc` of the value. Every
field reader is exact (a word is read back as the bytes it was read from, a string the strict
UTF-8 reader accepts is its own encoding, a length is a word), the strict address and tag
readers are too, and exactness composes through a frame. The strict reading also reads back
whatever the writer writes, so the frames the writer gives are exactly those the strict reading
accepts.
-/

namespace ShardStore

namespace Address

/-- Bits 48 to 63 of a word are clear exactly when the word is below `2 ^ 48`. -/
theorem shiftRight_eq_zero_iff (v : UInt64) : v >>> 48 = 0 ↔ v.toNat < 0x1000000000000 := by
  rw [← UInt64.toNat_inj, UInt64.toNat_shiftRight, Nat.shiftRight_eq_div_pow]
  simp only [UInt64.reduceToNat, Nat.reduceMod, Nat.reducePow]
  omega

theorem serial_shiftRight (a : Address) : a.serial >>> 48 = 0 := by
  have hip := a.ip.toNat_lt
  have hslot := a.slot.toNat_lt
  rw [shiftRight_eq_zero_iff, toNat_serial]
  omega

/-- A word with bits 48 to 63 clear is the serial of the address read from it. -/
theorem serial_ofSerial {v : UInt64} (h : v >>> 48 = 0) : (ofSerial v).serial = v := by
  have hv := (shiftRight_eq_zero_iff v).mp h
  obtain ⟨hip, hslot⟩ := toNat_ofSerial v
  apply UInt64.toNat_inj.mp
  rw [toNat_serial, hip, hslot]
  omega

end Address

namespace Normalizer

/-- The reading that takes each field only in the form the writer gives it: an address word
with bits 48 to 63 clear, and a tag list strictly ascending. -/
def strict : Normalizer where
  address v :=
    if v >>> 48 = 0 then pure (Address.ofSerial v) else Decoder.fail (.invalid "address word")
  tags ts := if ts.Pairwise (· < ·) then pure ⟨ts⟩ else Decoder.fail (.invalid "tag order")

theorem strict_address_of {v : UInt64} (h : v >>> 48 = 0) :
    strict.address v = pure (Address.ofSerial v) :=
  if_pos h

theorem strict_tags_of {ts : List String} (h : ts.Pairwise (· < ·)) :
    strict.tags ts = pure ⟨ts⟩ :=
  if_pos h

/-- The strict reading of an address word is the program's exactly when bits 48 to 63 of the
word are clear; otherwise it refuses the word. -/
theorem strict_address_eq_iff (v : UInt64) :
    strict.address v = lenient.address v ↔ v >>> 48 = 0 := by
  refine ⟨fun h => ?_, fun h => strict_address_of h⟩
  by_cases hv : v >>> 48 = 0
  · exact hv
  · -- the strict reading refuses the word, where the program's reads an address
    have hfail : strict.address v [] = .error (.invalid "address word") := by
      rw [show strict.address v = Decoder.fail (.invalid "address word") from if_neg hv]
      rfl
    rw [h] at hfail
    cases hfail

/-- The strict reading of a tag list is the program's exactly when the tags are strictly
ascending; otherwise it refuses the list. -/
theorem strict_tags_eq_iff (ts : List String) :
    strict.tags ts = lenient.tags ts ↔ ts.Pairwise (· < ·) := by
  refine ⟨fun h => ?_, fun h => ?_⟩
  · by_cases hts : ts.Pairwise (· < ·)
    · exact hts
    · have hfail : strict.tags ts [] = .error (.invalid "tag order") := by
        rw [show strict.tags ts = Decoder.fail (.invalid "tag order") from if_neg hts]
        rfl
      rw [h] at hfail
      cases hfail
  · rw [strict_tags_of h, show lenient.tags ts = pure (TagSet.ofList ts) from rfl,
      TagSet.ofList_of_pairwise h]

open Decoder in
/-- The strict reading reads back whatever the writer writes. -/
theorem strict_faithful : strict.Faithful where
  address a := by
    intro rest _
    rw [readAddress, Encode.address, Decoder.bind_ok (u64_ofU64 _ rest),
      strict_address_of (Address.serial_shiftRight a), Address.ofSerial_serial]
    rfl
  tags ts h := by
    rw [strict_tags_of h]
    exact reads_pure _

end Normalizer

namespace Bytes

/-- Eight bytes are the bytes of the word they are read as. -/
theorem ofU64_toU64 {c : Bytes} (h : c.length = 8) : ofU64 (toU64 c) = c := by
  have hlt := leValue_lt c
  rw [h] at hlt
  rw [ofU64, toU64, List.take_of_length_le (by omega), UInt64.toNat_ofNat',
    Nat.mod_eq_of_lt (by simpa using hlt), ← h, le_leValue]

theorem ofI64_toI64 {c : Bytes} (h : c.length = 8) : ofI64 (toI64 c) = c := by
  rw [ofI64, toI64, UInt64.toUInt64_toInt64, ofU64_toU64 h]

end Bytes

namespace Decoder

/-- Whatever `d` reads, it read from its written form: the bytes `p` written before it and the
bytes it consumed are together `enc` of the value it returns. -/
def Exact {α : Type} (p : Bytes) (d : Decoder α) (enc : α → Bytes) : Prop :=
  ∀ bs x r, d bs = .ok (x, r) → p ++ bs = enc x ++ r

section Exact

variable {α β : Type} {p : Bytes} {d : Decoder α} {e : α → Bytes} {enc : β → Bytes}

/-- Fields in sequence: the form of the first joins the bytes written before the rest. -/
theorem Exact.bind {f : α → Decoder β} (hd : Exact [] d e)
    (hf : ∀ a, Exact (p ++ e a) (f a) enc) : Exact p (d >>= f) enc := by
  intro bs y r h
  obtain ⟨a, r₁, ha, hrest⟩ := bind_eq_ok h
  have hbs : bs = e a ++ r₁ := hd bs a r₁ ha
  rw [hbs, ← List.append_assoc]
  exact hf a r₁ y r hrest

/-- The value is built from the fields read: the bytes before it are its form. -/
theorem exact_pure {y : β} (h : p = enc y) : Exact p (pure y) enc := by
  intro bs x r hx
  simp only [pure_apply, Except.ok.injEq, Prod.mk.injEq] at hx
  obtain ⟨rfl, rfl⟩ := hx
  rw [h]

theorem exact_fail (err : DecodeError) : Exact p (fail err : Decoder β) enc := by
  intro bs x r h
  cases h

/-- A decoder that reads everything of an input read it from the form of its value. -/
theorem Exact.runAll_eq {bs : Bytes} {x : α} (hd : Exact [] d e) (h : runAll d bs = .ok x) :
    e x = bs := by
  simpa using (hd bs x [] (runAll_eq_ok_nil h)).symm

theorem exact_take (n : Nat) : Exact [] (take n) id := by
  intro bs c r h
  simp only [take] at h
  split at h
  · simp only [Except.ok.injEq, Prod.mk.injEq] at h
    obtain ⟨rfl, rfl⟩ := h
    exact (List.take_append_drop n bs).symm
  · cases h

theorem length_of_take {n : Nat} {bs c r : Bytes} (h : take n bs = .ok (c, r)) :
    c.length = n := by
  simp only [take] at h
  split at h
  · simp only [Except.ok.injEq, Prod.mk.injEq] at h
    rw [← h.1, List.length_take]
    omega
  · cases h

theorem exact_u8 : Exact [] u8 (fun b => [b]) :=
  fun _ _ _ h => u8_eq_ok h

/-- A word is read from its own eight bytes. -/
theorem exact_u64 : Exact [] u64 Bytes.ofU64 := by
  intro bs x r h
  obtain ⟨c, r₁, hc, hx⟩ := bind_eq_ok h
  simp only [pure_apply, Except.ok.injEq, Prod.mk.injEq] at hx
  obtain ⟨rfl, rfl⟩ := hx
  rw [Bytes.ofU64_toU64 (length_of_take hc)]
  exact exact_take 8 bs c r₁ hc

theorem exact_i64 : Exact [] i64 Bytes.ofI64 := by
  intro bs x r h
  obtain ⟨c, r₁, hc, hx⟩ := bind_eq_ok h
  simp only [pure_apply, Except.ok.injEq, Prod.mk.injEq] at hx
  obtain ⟨rfl, rfl⟩ := hx
  rw [Bytes.ofI64_toI64 (length_of_take hc)]
  exact exact_take 8 bs c r₁ hc

theorem exact_key : Exact [] key Encode.key :=
  Exact.bind exact_u64 fun _ => Exact.bind exact_i64 fun _ => Exact.bind exact_i64 fun _ =>
    exact_pure rfl

/-- Only the bytes 0 and 1 are booleans. -/
theorem exact_bool : Exact [] bool Encode.bool := by
  refine Exact.bind exact_u8 fun b => ?_
  split
  · rename_i h
    rw [beq_iff_eq] at h
    exact exact_pure (by rw [h]; rfl)
  split
  · rename_i h
    rw [beq_iff_eq] at h
    exact exact_pure (by rw [h]; rfl)
  · exact exact_fail _

/-- A length is read from its word, whatever it announces. -/
theorem exact_len (k : Nat) : Exact [] (len k) Encode.len := by
  refine Exact.bind exact_u64 fun x => ?_
  intro bs n r h
  obtain ⟨left, r₁, hleft, hrest⟩ := bind_eq_ok h
  simp only [remaining, Except.ok.injEq, Prod.mk.injEq] at hleft
  obtain ⟨rfl, rfl⟩ := hleft
  split at hrest
  · cases hrest
  · simp only [pure_apply, Except.ok.injEq, Prod.mk.injEq] at hrest
    obtain ⟨rfl, rfl⟩ := hrest
    simp [Encode.len]

/-- Bytes are read with the length they have. -/
theorem exact_bytes : Exact [] bytes Encode.bytes := by
  refine Exact.bind (exact_len 1) fun n => ?_
  intro bs c r h
  have hc : c.length = n := length_of_take h
  rw [Encode.bytes, hc, List.append_assoc]
  exact congrArg (Encode.len n ++ ·) (exact_take n bs c r h)

/-- A string is read from its UTF-8 form: the strict reader accepts only encodings. -/
theorem exact_string (field : String) : Exact [] (string field) Encode.string := by
  refine Exact.bind exact_bytes fun c => ?_
  split
  · rename_i s hs
    exact exact_pure (by rw [Encode.string, Bytes.ofString_of_utf8? hs]; rfl)
  · exact exact_fail _

/-- Elements are read one after another from their forms. -/
theorem exact_many (hd : Exact [] d e) : ∀ n, Exact [] (many d n) (·.flatMap e)
  | 0 => exact_pure rfl
  | n + 1 =>
    Exact.bind hd fun _ => Exact.bind (exact_many hd n) fun _ => exact_pure (by simp)

theorem yields_length_many : ∀ n, Yields (·.length = n) (many d n)
  | 0 => yields_pure rfl
  | n + 1 => yields_bind fun _ =>
    (yields_length_many n).bind_of fun _ h => yields_pure (by simp [h])

/-- Every element read satisfies what the element reader yields. -/
theorem yields_many {Q : α → Prop} (hd : Yields Q d) : ∀ n, Yields (∀ x ∈ ·, Q x) (many d n)
  | 0 => yields_pure fun _ h => by cases h
  | n + 1 => hd.bind_of fun x hx => (yields_many hd n).bind_of fun xs hxs =>
    yields_pure fun y hy => (List.mem_cons.mp hy).elim (· ▸ hx) (hxs y)

/-- A counted list is read from its count and its elements' forms: the count read is the
number of elements. -/
theorem exact_counted {k : Nat} {g : List α → Decoder β} (hd : Exact [] d e)
    (hg : ∀ xs, Exact (p ++ Encode.len xs.length ++ xs.flatMap e) (g xs) enc) :
    Exact p (len k >>= fun n => many d n >>= g) enc := by
  intro bs y r h
  obtain ⟨n, r₁, hn, hrest⟩ := bind_eq_ok h
  obtain ⟨xs, r₂, hxs, hg'⟩ := bind_eq_ok hrest
  have h₁ : bs = Encode.len n ++ r₁ := exact_len k bs n r₁ hn
  have h₂ : r₁ = xs.flatMap e ++ r₂ := exact_many hd n r₁ xs r₂ hxs
  have hlen : xs.length = n := (yields_length_many n).elim hxs
  rw [h₁, h₂, ← hlen, ← List.append_assoc, ← List.append_assoc]
  exact hg xs r₂ y r hg'

theorem exact_counted_last {k : Nat} (hd : Exact [] d e) :
    Exact [] (len k >>= fun n => many d n) fun xs => Encode.len xs.length ++ xs.flatMap e := by
  have h := exact_counted (k := k) (g := pure) (p := []) hd fun xs => exact_pure rfl
  simpa only [bind_pure, List.nil_append] using h

/-- The canonical image of a reading. When what `dl` reads satisfies `Q`, and `ds` is exact for
`e` and reads back `e x` for every `x` satisfying `Q`, a value `dl` reads from a whole input is
written back as that input exactly when `ds` reads the input to the same value. -/
theorem encode_eq_iff_of_exact {Q : α → Prop} {dl ds : Decoder α} (hyields : Yields Q dl)
    (hexact : Exact [] ds e) (hreads : ∀ x, Q x → Reads ds x (e x)) {bs : Bytes} {x : α}
    (hfit : bs.length ≤ wordMax) (h : runAll dl bs = .ok x) :
    e x = bs ↔ runAll ds bs = .ok x := by
  constructor
  · rintro rfl
    exact (hreads x (hyields.elim (runAll_eq_ok_nil h))).run hfit
  · exact hexact.runAll_eq

end Exact

end Decoder

namespace Normalizer

open Decoder

/-- A strictly read address is read from its serial. -/
theorem exact_readAddress : Exact [] strict.readAddress Encode.address := by
  refine Exact.bind exact_u64 fun v => ?_
  by_cases h : v >>> 48 = 0
  · rw [strict_address_of h]
    exact exact_pure (by rw [Encode.address, Address.serial_ofSerial h]; rfl)
  · rw [show strict.address v = fail (.invalid "address word") from if_neg h]
    exact exact_fail _

end Normalizer

namespace Entry

open Decoder

/-- A strictly read entry is read from its binary form: its tags were listed ascending. -/
theorem exact_decoder : Exact [] (decoder .strict) encode := by
  refine Exact.bind exact_key fun k => Exact.bind exact_bytes fun v =>
    exact_counted (exact_string "tag") fun ts => ?_
  by_cases h : ts.Pairwise (· < ·)
  · rw [Normalizer.strict_tags_of h, pure_bind]
    exact exact_pure (by simp [encode, TagSet.size])
  · rw [show Normalizer.strict.tags ts = fail (.invalid "tag order") from if_neg h]
    intro bs x r hx
    cases hx

/-- The program's reading keeps an entry's tags as a set, ascending. -/
theorem yields_ascending : Yields (·.tags.Ascending) (decoder .lenient) := by
  refine yields_bind fun k => yields_bind fun v => yields_bind fun n => yields_bind fun ts => ?_
  rw [show Normalizer.lenient.tags ts = pure (TagSet.ofList ts) from rfl, pure_bind]
  exact yields_pure (TagSet.ascending_ofList ts)

theorem ascending_of_decode {bs : Bytes} {e : Entry} (h : decode bs = .ok e) : e.tags.Ascending :=
  yields_ascending.elim (runAll_eq_ok_nil h)

/-- A decoded entry is written back as its binary form exactly when the strict reading accepts
it. -/
theorem encode_eq_iff {bs : Bytes} {e : Entry} (hfit : bs.length ≤ wordMax)
    (h : decode bs = .ok e) : e.encode = bs ↔ decode bs .strict = .ok e :=
  encode_eq_iff_of_exact yields_ascending exact_decoder (reads_decoder Normalizer.strict_faithful)
    hfit h

end Entry

namespace Message

open Decoder

theorem exact_addresses : Exact [] (addressesDecoder .strict) encodeAddresses :=
  exact_counted_last Normalizer.exact_readAddress

/-- Only the reasons 0 and 1 are wakes. -/
theorem exact_wake : Exact [] wakeDecoder encodeWake := by
  refine Exact.bind exact_u8 fun b => ?_
  split
  · rename_i h
    rw [beq_iff_eq] at h
    subst h
    exact Exact.bind (exact_string _) fun _ => exact_pure rfl
  split
  · rename_i h
    rw [beq_iff_eq] at h
    subst h
    exact Exact.bind (exact_string _) fun _ => exact_pure rfl
  · exact exact_fail _

theorem exact_vertexMessage : Exact [] vertexMessageDecoder encodeVertexMessage :=
  Exact.bind exact_u64 fun _ => Exact.bind exact_i64 fun _ => Exact.bind exact_bytes fun _ =>
    exact_pure rfl

/-- A barrier report pair is read from its address and its count. -/
theorem exact_sent :
    Exact [] (do let x ← Normalizer.strict.readAddress; let c ← u64; pure (x, c))
      fun p => Encode.address p.1 ++ Bytes.ofU64 p.2 :=
  Exact.bind Normalizer.exact_readAddress fun x => Exact.bind exact_u64 fun c =>
    exact_pure (y := (x, c)) rfl

theorem exact_vertex : Exact [] (do let g ← u64; let v ← i64; pure (g, v)) encodeVertex :=
  Exact.bind exact_u64 fun g => Exact.bind exact_i64 fun v => exact_pure (y := (g, v)) rfl

/-- Under each type byte the strict reading reads the fields of a message of that type from
their written forms. -/
theorem exact_body (m : Message) : Exact [] (bodyDecoder m.typeByte .strict) payload := by
  cases m with
  | handshake _ => exact Exact.bind exact_addresses fun _ => exact_pure rfl
  | heartbeat _ => exact Exact.bind exact_addresses fun _ => exact_pure rfl
  | wantHeartbeat _ => exact Exact.bind Normalizer.exact_readAddress fun _ => exact_pure rfl
  | addNeighbor _ => exact Exact.bind Normalizer.exact_readAddress fun _ => exact_pure rfl
  | numNeighbors => exact exact_pure rfl
  | getNeighbors => exact exact_pure rfl
  | ringSize => exact exact_pure rfl
  | stats _ _ =>
    exact Exact.bind Normalizer.exact_readAddress fun _ => Exact.bind exact_u64 fun _ =>
      exact_pure rfl
  | addEntry _ => exact Exact.bind Entry.exact_decoder fun _ => exact_pure rfl
  | addTag _ _ =>
    exact Exact.bind exact_key fun _ => Exact.bind (exact_string _) fun _ => exact_pure rfl
  | removeTag _ _ =>
    exact Exact.bind exact_key fun _ => Exact.bind (exact_string _) fun _ => exact_pure rfl
  | updateValue _ _ =>
    exact Exact.bind exact_key fun _ => Exact.bind exact_bytes fun _ => exact_pure rfl
  | subscribe _ _ _ =>
    exact Exact.bind exact_key fun _ => Exact.bind exact_key fun _ =>
      Exact.bind exact_wake fun _ => exact_pure rfl
  | getEntryByKey _ => exact Exact.bind exact_key fun _ => exact_pure rfl
  | addFilterDir _ => exact Exact.bind (exact_string _) fun _ => exact_pure rfl
  | addFilterDirBroadcast _ => exact Exact.bind (exact_string _) fun _ => exact_pure rfl
  | installFilter _ => exact Exact.bind (exact_string _) fun _ => exact_pure rfl
  | installFilterBroadcast _ => exact Exact.bind (exact_string _) fun _ => exact_pure rfl
  | clearFilters => exact exact_pure rfl
  | clearFiltersBroadcast => exact exact_pure rfl
  | addDbFile _ => exact Exact.bind (exact_string _) fun _ => exact_pure rfl
  | exportDb _ => exact Exact.bind (exact_string _) fun _ => exact_pure rfl
  | exportDbBroadcast _ => exact Exact.bind (exact_string _) fun _ => exact_pure rfl
  | importDb _ => exact Exact.bind (exact_string _) fun _ => exact_pure rfl
  | importDbDistribute _ => exact Exact.bind (exact_string _) fun _ => exact_pure rfl
  | dbSize => exact exact_pure rfl
  | getState => exact exact_pure rfl
  | processing => exact exact_pure rfl
  | query _ => exact exact_counted (exact_string _) fun _ => exact_pure rfl
  | getEntries => exact exact_pure rfl
  | installedFilters => exact exact_pure rfl
  | printEntries => exact exact_pure rfl
  | process _ => exact Exact.bind exact_bool fun _ => exact_pure rfl
  | processBroadcast => exact exact_pure rfl
  | algProcess => exact exact_pure rfl
  | startBarrierWait _ _ _ =>
    exact Exact.bind Normalizer.exact_readAddress fun _ => Exact.bind exact_bool fun _ =>
      exact_counted exact_sent fun _ => exact_pure rfl
  | barrierMsgDist _ => exact Exact.bind exact_u64 fun _ => exact_pure rfl
  | atBarrier _ => exact Exact.bind Normalizer.exact_readAddress fun _ => exact_pure rfl
  | endBarrier => exact exact_pure rfl
  | algVertices _ _ =>
    exact Exact.bind Normalizer.exact_readAddress fun _ =>
      exact_counted exact_vertex fun _ => exact_pure rfl
  | algInternalCompute _ _ _ _ =>
    exact Exact.bind Normalizer.exact_readAddress fun _ => Exact.bind exact_bool fun _ =>
      Exact.bind exact_u64 fun _ => exact_counted exact_vertexMessage fun _ => exact_pure rfl

/-- A message other than an `addEntry` carries no entry. -/
theorem carried_eq_nil {m : Message} (h : m.typeByte ≠ 0xa4) : m.carried = [] := by
  cases m with
  | addEntry _ => exact absurd rfl h
  | _ => rfl

/-- The program's reading keeps the tags of the entry a message carries ascending. -/
theorem yields_tagsAscending (t : UInt8) : Yields TagsAscending (bodyDecoder t) := by
  by_cases ht : t = 0xa4
  · -- the entry of an `addEntry` is read as the set of its tags
    subst ht
    rw [bodyDecoder_addEntry]
    refine Entry.yields_ascending.bind_of fun e he => yields_pure fun e' he' => ?_
    rw [carried, List.mem_singleton] at he'
    exact he' ▸ he
  · -- every other message carries no entry
    refine (bodyDecoder_typeByte t).mono fun m hm e he => ?_
    rw [carried_eq_nil (hm ▸ ht)] at he
    cases he

/-- The strict reading reads a message from its frame: the type byte, then the fields the
type byte names. -/
theorem exact_decoder : Exact [] (decoder .strict) encode := by
  intro bs m r h
  obtain ⟨t, body, ht, hbody⟩ := bind_eq_ok h
  obtain rfl : m.typeByte = t := (bodyDecoder_typeByte t).elim hbody
  rw [u8_eq_ok ht]
  exact congrArg (m.typeByte :: ·) (exact_body m body m r hbody)

/-- A decoded message is written back as its frame exactly when the strict reading accepts the
frame. -/
theorem encode_eq_iff {f : Bytes} {m : Message} (hfit : f.length ≤ wordMax)
    (h : decode f = .ok m) : m.encode = f ↔ decode f .strict = .ok m :=
  encode_eq_iff_of_exact (yields_bind yields_tagsAscending) exact_decoder
    (fun m hm => (reads_u8 _).bind (reads_body Normalizer.strict_faithful m hm)) hfit h

end Message

namespace Reply

open Decoder

/-- An entry of an entries reply is read from its length and its binary form: the length read
is the size of the entry. -/
theorem exact_entry :
    Exact [] (entryDecoder .strict) fun e => Encode.len e.size ++ e.encode := by
  refine Exact.bind (exact_len 1) fun n => ?_
  intro bs e r h
  obtain ⟨c, r₁, hc, hdec⟩ := bind_eq_ok h
  cases hd : Entry.decode c .strict with
  | error err =>
    rw [hd] at hdec
    cases hdec
  | ok e' =>
    rw [hd] at hdec
    simp only [pure_apply, Except.ok.injEq, Prod.mk.injEq] at hdec
    obtain ⟨rfl, rfl⟩ := hdec
    have henc : e'.encode = c := Entry.exact_decoder.runAll_eq hd
    have hsize : e'.size = n := by rw [← Entry.length_encode, henc, length_of_take hc]
    show Encode.len n ++ bs = Encode.len e'.size ++ e'.encode ++ r₁
    rw [hsize, List.append_assoc, henc]
    exact congrArg (Encode.len n ++ ·) (exact_take n bs c r₁ hc)

/-- The strict reading reads a reply from its frame: the tag byte, then the fields the tag
names. -/
theorem exact_frame : Exact [] (do bodyDecoder (← u8) .strict) encode := by
  refine Exact.bind exact_u8 fun t => ?_
  unfold bodyDecoder
  split
  · exact exact_pure rfl
  · exact Exact.bind exact_u64 fun _ => exact_pure rfl
  · exact Exact.bind exact_bool fun _ => exact_pure rfl
  · exact Exact.bind (exact_string _) fun _ => exact_pure rfl
  · exact exact_counted exact_entry fun _ => exact_pure rfl
  · refine Exact.bind exact_bool fun present => ?_
    cases present
    · exact exact_pure rfl
    · exact Exact.bind exact_bytes fun _ => exact_pure rfl
  · exact Exact.bind Message.exact_addresses fun _ => exact_pure rfl
  · exact Exact.bind (exact_string _) fun _ => Exact.bind (exact_string _) fun _ =>
      exact_pure rfl
  · exact exact_fail _

theorem yields_entryAscending : Yields (·.tags.Ascending) (entryDecoder .lenient) := by
  refine yields_bind fun n => yields_bind fun c => ?_
  split
  · rename_i e he
    exact yields_pure (Entry.ascending_of_decode he)
  · exact yields_fail _

/-- The program's reading keeps the tags of the entries a reply carries ascending. -/
theorem yields_tagsAscending : Yields TagsAscending (do bodyDecoder (← u8) .lenient) := by
  refine yields_bind fun t => ?_
  unfold bodyDecoder
  -- only an entries reply carries entries; every other reply carries none
  split
  · exact yields_pure fun _ h => by cases h
  · exact yields_bind fun _ => yields_pure fun _ h => by cases h
  · exact yields_bind fun _ => yields_pure fun _ h => by cases h
  · exact yields_bind fun _ => yields_pure fun _ h => by cases h
  · exact yields_bind fun n => (yields_many yields_entryAscending n).bind_of fun _ hes =>
      yields_pure hes
  · refine yields_bind fun present => ?_
    cases present
    · exact yields_pure fun _ h => by cases h
    · exact yields_bind fun _ => yields_pure fun _ h => by cases h
  · exact yields_bind fun _ => yields_pure fun _ h => by cases h
  · exact yields_bind fun _ => yields_bind fun _ => yields_pure fun _ h => by cases h
  · exact yields_fail _

/-- A decoded reply is written back as its frame exactly when the strict reading accepts the
frame. -/
theorem encode_eq_iff {f : Bytes} {r : Reply} (hfit : f.length ≤ wordMax)
    (h : decode f = .ok r) : r.encode = f ↔ decode f .strict = .ok r :=
  encode_eq_iff_of_exact yields_tagsAscending exact_frame
    (reads_frame Normalizer.strict_faithful) hfit h

end Reply

namespace Files

open Decoder

/-- The strict reading reads an export from its count and each entry's length and form. -/
theorem exact_entries : Exact [] (len 8 >>= fun n => many (sizedEntry .strict) n) serialize :=
  exact_counted_last Reply.exact_entry

theorem reads_entries {es : List Entry} (h : ∀ e ∈ es, e.tags.Ascending) :
    Reads (len 8 >>= fun n => many (sizedEntry .strict) n) es (serialize es) :=
  reads_counted_last (by decide)
    (fun e he => Reply.reads_entry Normalizer.strict_faithful e (h e he))
    (fun e _ => by rw [Reply.length_sized]; omega)

/-- A read export is written back as the bytes it was read from exactly when the strict reading
accepts them. -/
theorem serialize_eq_iff {bs : Bytes} {es : List Entry} (hfit : bs.length ≤ wordMax)
    (h : deserialize bs = .ok es) : serialize es = bs ↔ deserialize bs .strict = .ok es :=
  encode_eq_iff_of_exact (yields_bind (yields_many Reply.yields_entryAscending)) exact_entries
    (fun _ => reads_entries) hfit h

end Files

/-- The canonical image of the decoders. A byte string that decodes is written back as itself
exactly when the strict reading accepts it, that is, when every address word in it has bits 48
to 63 clear and every entry in it lists its tags strictly ascending. This holds of message
frames, of reply frames, of an entry's binary form and of an export (the last two hold no
address word, so only the tag order counts), for every byte string shorter than `2 ^ 64`
bytes. The strict reading is the program's on exactly those address words and tag lists, and
refuses the others. -/
theorem decoded_reencodes_iff_strict :
    (∀ (f : Bytes) (m : Message), f.length ≤ Decoder.wordMax → Message.decode f = .ok m →
      (m.encode = f ↔ Message.decode f .strict = .ok m)) ∧
    (∀ (f : Bytes) (r : Reply), f.length ≤ Decoder.wordMax → Reply.decode f = .ok r →
      (r.encode = f ↔ Reply.decode f .strict = .ok r)) ∧
    (∀ (bs : Bytes) (e : Entry), bs.length ≤ Decoder.wordMax → Entry.decode bs = .ok e →
      (e.encode = bs ↔ Entry.decode bs .strict = .ok e)) ∧
    (∀ (bs : Bytes) (es : List Entry), bs.length ≤ Decoder.wordMax →
      Files.deserialize bs = .ok es →
      (Files.serialize es = bs ↔ Files.deserialize bs .strict = .ok es)) ∧
    (∀ v : UInt64, Normalizer.strict.address v = Normalizer.lenient.address v ↔ v >>> 48 = 0) ∧
    (∀ ts : List String,
      Normalizer.strict.tags ts = Normalizer.lenient.tags ts ↔ ts.Pairwise (· < ·)) :=
  ⟨fun _ _ => Message.encode_eq_iff, fun _ _ => Reply.encode_eq_iff,
    fun _ _ => Entry.encode_eq_iff, fun _ _ => Files.serialize_eq_iff,
    Normalizer.strict_address_eq_iff, Normalizer.strict_tags_eq_iff⟩

/-- A heartbeat request whose address word sets bit 50 decodes, to an address whose frame
clears that bit: the frame is not written back, and the strict reading refuses it. -/
theorem decoded_reencodes_iff_strict_high_bit :
    Message.decode (0xfe :: Bytes.ofU64 0x4000000000007) = .ok (.wantHeartbeat ⟨0, 7⟩) ∧
    (Message.wantHeartbeat ⟨0, 7⟩).encode ≠ 0xfe :: Bytes.ofU64 0x4000000000007 ∧
    Message.decode (0xfe :: Bytes.ofU64 0x4000000000007) .strict ≠
      .ok (.wantHeartbeat ⟨0, 7⟩) := by
  have hdec : Message.decode (0xfe :: Bytes.ofU64 0x4000000000007) =
      .ok (.wantHeartbeat ⟨0, 7⟩) := rfl
  have hne : (Message.wantHeartbeat ⟨0, 7⟩).encode ≠ 0xfe :: Bytes.ofU64 0x4000000000007 := by
    decide
  exact ⟨hdec, hne, fun h => hne ((decoded_reencodes_iff_strict.1 _ _ (by decide) hdec).mpr h)⟩

end ShardStore
