import ShardStore.Wire.Reply
import ShardStore.Proofs.Wire.Frames
import ShardStore.Proofs.TagSet
import ShardStore.Proofs.Utf8
/-!
Reading a frame back.

Every message and every reply reads back from its frame as it was written, whatever its
addresses (any slot), keys, strings, payloads, flags, wakes and list lengths. Two things are
asked of it, and the program builds nothing else: the tags of each entry are strictly ascending,
as a tag set keeps them, and the frame is shorter than `2 ^ 64` bytes, so every length in it is
a word.

A frame is a sequence of fields, and `Reads d x bs` says that the decoder `d` takes `x` off the
front of `bs` and leaves whatever follows. Each field's reader reads what its writer wrote, and
readers in sequence read fields in sequence. A counted list reads back because each element's
written form is at least as long as the size the reader's length check assumes: eight bytes for
an address, a string, a tag count or an entry, sixteen for a barrier report pair or a vertex,
twenty-four for a vertex message.

The readers are stated for every normalizer that reads back what the writer writes
(`Normalizer.Faithful`): the program's lenient one, and any stricter one that refuses only forms
the writer never gives.
-/

namespace ShardStore

namespace Decoder

theorem wordMax_eq : wordMax = 18446744073709551615 := rfl

/-- `d` reads `x` off the front of `bs` and leaves what follows, in every input short enough for
its lengths to be words. -/
def Reads {α : Type} (d : Decoder α) (x : α) (bs : Bytes) : Prop :=
  ∀ rest, (bs ++ rest).length ≤ wordMax → d (bs ++ rest) = .ok (x, rest)

section Reads

variable {α β : Type} {d : Decoder α} {x : α} {bs : Bytes}

theorem reads_of (h : ∀ rest, d (bs ++ rest) = .ok (x, rest)) : Reads d x bs :=
  fun rest _ => h rest

/-- Fields read in sequence. -/
theorem Reads.bind {f : α → Decoder β} {y : β} {bs' : Bytes} (hd : Reads d x bs)
    (hf : Reads (f x) y bs') : Reads (d >>= f) y (bs ++ bs') := by
  intro rest hfit
  rw [List.append_assoc] at hfit ⊢
  rw [bind_ok (hd _ hfit)]
  exact hf rest (by simp at hfit ⊢; omega)

/-- The last field of a value: the value is built from it. -/
theorem Reads.map {g : α → β} (hd : Reads d x bs) :
    Reads (d >>= fun a => pure (g a)) (g x) bs := by
  intro rest hfit
  rw [bind_ok (hd rest hfit)]
  rfl

theorem Reads.run (h : Reads d x bs) (hfit : bs.length ≤ wordMax) : runAll d bs = .ok x := by
  have hd := h [] (by simpa using hfit)
  rw [List.append_nil] at hd
  simp only [runAll, bind_ok hd]
  rfl

theorem reads_u8 (b : UInt8) : Reads u8 b [b] := reads_of (u8_cons b)

theorem reads_u64 (n : UInt64) : Reads u64 n (Bytes.ofU64 n) := reads_of (u64_ofU64 n)

theorem reads_i64 (n : Int64) : Reads i64 n (Bytes.ofI64 n) := reads_of (i64_ofI64 n)

theorem reads_key (k : Key) : Reads key k (Encode.key k) := reads_of (key_toBytes k)

theorem reads_address (a : Address) : Reads address a (Encode.address a) :=
  reads_of (address_encode a)

theorem reads_bool (b : Bool) : Reads bool b (Encode.bool b) := reads_of (bool_encode b)

/-- A length word reads back as the length, when the length is a word and what it announces
fits in what follows. -/
theorem len_encode {k n : Nat} {rest : Bytes} (hn : n ≤ wordMax)
    (hfit : n * max k 1 ≤ rest.length) : len k (Encode.len n ++ rest) = .ok (n, rest) := by
  have hword : (UInt64.ofNat n).toNat = n := by
    rw [UInt64.toNat_ofNat', Nat.mod_eq_of_lt (by rw [wordMax_eq] at hn; simp; omega)]
  rw [len, Encode.len, bind_ok (u64_ofU64 _ rest), hword]
  simp only [remaining, bind, StateT.bind, Except.bind]
  rw [if_neg (by omega)]
  rfl

theorem length_len (n : Nat) : (Encode.len n).length = 8 := Bytes.length_le 8 _

theorem reads_bytes (bs : Bytes) : Reads bytes bs (Encode.bytes bs) := by
  intro rest hfit
  simp only [Encode.bytes, List.append_assoc, length_len, List.length_append] at hfit ⊢
  rw [bytes, bind_ok (len_encode (by omega) (by simp))]
  simp [take]

theorem reads_string (field : String) (s : String) :
    Reads (string field) s (Encode.string s) := by
  intro rest hfit
  rw [string, Encode.string, bind_ok (reads_bytes _ rest hfit), Bytes.utf8?_ofString]
  rfl

/-- Elements read back one after another. -/
theorem reads_many {enc : α → Bytes} :
    ∀ {xs : List α}, (∀ x ∈ xs, Reads d x (enc x)) →
      Reads (many d xs.length) xs (xs.flatMap enc)
  | [], _ => reads_of fun rest => rfl
  | y :: ys, h => by
    have hys : Reads (many d ys.length) ys (ys.flatMap enc) :=
      reads_many fun x hx => h x (List.mem_cons_of_mem _ hx)
    exact (h y List.mem_cons_self).bind (hys.map (g := (y :: ·)))

/-- Elements each at least `k` bytes long take at least `k` bytes apiece. -/
theorem length_mul_le_flatMap {enc : α → Bytes} {k : Nat} :
    ∀ {xs : List α}, (∀ x ∈ xs, k ≤ (enc x).length) →
      xs.length * k ≤ (xs.flatMap enc).length
  | [], _ => by simp
  | y :: ys, h => by
    have hy := h y List.mem_cons_self
    have hys : ys.length * k ≤ (ys.flatMap enc).length :=
      length_mul_le_flatMap fun x hx => h x (List.mem_cons_of_mem _ hx)
    simp only [List.length_cons, List.flatMap_cons, List.length_append, Nat.succ_mul]
    omega

/-- A counted list reads back when each element's form is at least as long as the size the
length check assumes for it. -/
theorem reads_counted {enc : α → Bytes} {k : Nat} {xs : List α} {g : List α → Decoder β}
    {y : β} {bs' : Bytes} (hk : 0 < k) (hd : ∀ x ∈ xs, Reads d x (enc x))
    (hsize : ∀ x ∈ xs, k ≤ (enc x).length) (hg : Reads (g xs) y bs') :
    Reads (len k >>= fun n => many d n >>= g) y
      (Encode.len xs.length ++ (xs.flatMap enc ++ bs')) := by
  intro rest hfit
  have hlen := length_mul_le_flatMap hsize
  have hmax : max k 1 = k := by omega
  simp only [List.append_assoc, List.length_append, length_len] at hfit ⊢
  rw [bind_ok (len_encode (by
      have : xs.length ≤ xs.length * k := Nat.le_mul_of_pos_right _ hk
      omega) (by simp only [hmax, List.length_append]; omega))]
  rw [← List.append_assoc]
  exact ((reads_many hd).bind hg) rest (by simp only [List.length_append]; omega)

theorem reads_pure (x : α) : Reads (pure x) x [] := reads_of fun _ => rfl

/-- A counted list that ends its value. -/
theorem reads_counted_last {enc : α → Bytes} {k : Nat} {xs : List α} (hk : 0 < k)
    (hd : ∀ x ∈ xs, Reads d x (enc x)) (hsize : ∀ x ∈ xs, k ≤ (enc x).length) :
    Reads (len k >>= fun n => many d n) xs (Encode.len xs.length ++ xs.flatMap enc) := by
  have h := reads_counted (g := pure) hk hd hsize (reads_pure xs)
  simp only [bind_pure, List.append_nil] at h
  exact h

end Reads

end Decoder

namespace Normalizer

open Decoder

/-- A normalizer that reads back what the writer writes: an address from its serial, and a
strictly ascending tag list as the tag set it lists. -/
structure Faithful (N : Normalizer) : Prop where
  address : ∀ a, Reads N.readAddress a (Encode.address a)
  tags : ∀ ts : List String, ts.Pairwise (· < ·) → Reads (N.tags ts) ⟨ts⟩ []

theorem lenient_faithful : lenient.Faithful where
  address := reads_address
  tags ts h := by
    rw [show lenient.tags ts = pure (TagSet.ofList ts) from rfl, TagSet.ofList_of_pairwise h]
    exact reads_pure _

end Normalizer

namespace Entry

theorem length_key (k : Key) : (Encode.key k).length = 24 := by
  simp [Encode.key, Key.toBytes, Bytes.ofI64, Bytes.ofU64]

theorem length_string (s : String) : (Encode.string s).length = 8 + s.utf8ByteSize := by
  simp [Encode.string, Encode.bytes, Decoder.length_len, Bytes.length_ofString]

/-- The binary form of an entry is as long as the size the store charges for it. -/
theorem length_encode (e : Entry) : e.encode.length = e.size := by
  have htags : ∀ (ts : List String) (n : Nat),
      n + (ts.flatMap Encode.string).length = ts.foldl (fun n t => n + 8 + t.utf8ByteSize) n := by
    intro ts
    induction ts with
    | nil => simp
    | cons t ts ih =>
      intro n
      rw [List.flatMap_cons, List.length_append, length_string, List.foldl_cons, ← ih]
      omega
  simp only [encode, size, List.length_append, length_key, Encode.bytes, Decoder.length_len,
    ← htags]
  omega

section Faithful

variable {N : Normalizer} (hN : N.Faithful)
include hN

/-- The fields of an entry read back, its ascending tags as the set they list. -/
theorem reads_fields (k : Key) (v : Bytes) {ts : List String} (h : ts.Pairwise (· < ·)) :
    Decoder.Reads (decoder N) ⟨k, ⟨ts⟩, v⟩
      (Encode.key k ++ (Encode.bytes v ++ (Encode.len ts.length ++ (ts.flatMap Encode.string ++
        [])))) :=
  (Decoder.reads_key k).bind ((Decoder.reads_bytes v).bind
    (Decoder.reads_counted (by decide) (fun t _ => Decoder.reads_string "tag" t)
      (fun t _ => by rw [length_string]; omega)
      ((hN.tags ts h).map (g := fun s => (⟨k, s, v⟩ : Entry)))))

/-- An entry whose tags are ascending reads back from its binary form. -/
theorem reads_decoder (e : Entry) (h : e.tags.Ascending) :
    Decoder.Reads (decoder N) e e.encode := by
  simpa [encode, TagSet.size, List.append_assoc] using reads_fields hN e.key e.value h

theorem decode_encode_of_faithful (e : Entry) (h : e.tags.Ascending)
    (hfit : e.size ≤ Decoder.wordMax) : decode e.encode N = .ok e :=
  (reads_decoder hN e h).run (by rw [length_encode]; exact hfit)

end Faithful

end Entry

namespace Message

open Decoder

/-- The entries a message carries: the new entry of an `addEntry`, none otherwise. -/
def carried : Message → List Entry
  | addEntry e => [e]
  | _ => []

/-- The tags of every entry a message carries are ascending, as a tag set keeps them. -/
def TagsAscending (m : Message) : Prop := ∀ e ∈ m.carried, e.tags.Ascending

instance (m : Message) : Decidable m.TagsAscending :=
  inferInstanceAs (Decidable (∀ e ∈ m.carried, e.tags.Ascending))

theorem length_address (a : Address) : (Encode.address a).length = 8 := Bytes.length_le 8 _

theorem length_sent (a : Address) (n : UInt64) :
    (Encode.address a ++ Bytes.ofU64 n).length = 16 := by
  simp [length_address, Bytes.ofU64]

theorem length_encodeVertex (v : GraphId × VertexId) : (encodeVertex v).length = 16 := by
  simp [encodeVertex, Bytes.ofI64, Bytes.ofU64]

theorem length_encodeVertexMessage (m : VertexMessage) :
    (encodeVertexMessage m).length = 24 + m.payload.length := by
  simp [encodeVertexMessage, Encode.bytes, length_len, Bytes.ofI64, Bytes.ofU64]
  omega

section Faithful

variable {N : Normalizer} (hN : N.Faithful)
include hN

theorem reads_addresses (ps : List Address) :
    Reads (addressesDecoder N) ps (encodeAddresses ps) :=
  reads_counted_last (by decide) (fun a _ => hN.address a)
    (fun a _ => Nat.le_of_eq (length_address a).symm)

end Faithful

theorem reads_wake (r : Wake) : Reads wakeDecoder r (encodeWake r) := by
  cases r with
  | removeTag t => exact (reads_u8 0).bind (reads_string _ t).map
  | addTag t => exact (reads_u8 1).bind (reads_string _ t).map

theorem reads_vertexMessage (m : VertexMessage) :
    Reads vertexMessageDecoder m (encodeVertexMessage m) := by
  simp only [encodeVertexMessage, List.append_assoc]
  exact (reads_u64 m.graph).bind ((reads_i64 m.vtx).bind
    ((reads_bytes m.payload).map (g := fun p => (⟨m.graph, m.vtx, p⟩ : VertexMessage))))

section Faithful

variable {N : Normalizer} (hN : N.Faithful)
include hN

/-- Every message's fields read back under its type byte. -/
theorem reads_body (m : Message) (h : m.TagsAscending) :
    Reads (bodyDecoder m.typeByte N) m m.payload := by
  cases m with
  | handshake ps => exact (reads_addresses hN ps).map (g := handshake)
  | heartbeat ps => exact (reads_addresses hN ps).map (g := heartbeat)
  | wantHeartbeat a => exact (hN.address a).map (g := wantHeartbeat)
  | addNeighbor a => exact (hN.address a).map (g := addNeighbor)
  | numNeighbors => exact reads_pure _
  | getNeighbors => exact reads_pure _
  | ringSize => exact reads_pure _
  | stats a n => exact (hN.address a).bind ((reads_u64 n).map (g := stats a))
  | addEntry e => exact (Entry.reads_decoder hN e (h e List.mem_cons_self)).map (g := addEntry)
  | addTag k t => exact (reads_key k).bind ((reads_string _ t).map (g := addTag k))
  | removeTag k t => exact (reads_key k).bind ((reads_string _ t).map (g := removeTag k))
  | updateValue k v => exact (reads_key k).bind ((reads_bytes v).map (g := updateValue k))
  | subscribe s w r =>
    simp only [payload, List.append_assoc]
    exact (reads_key s).bind ((reads_key w).bind ((reads_wake r).map (g := subscribe s w)))
  | getEntryByKey k => exact (reads_key k).map (g := getEntryByKey)
  | addFilterDir s => exact (reads_string _ s).map (g := addFilterDir)
  | addFilterDirBroadcast s => exact (reads_string _ s).map (g := addFilterDirBroadcast)
  | installFilter s => exact (reads_string _ s).map (g := installFilter)
  | installFilterBroadcast s => exact (reads_string _ s).map (g := installFilterBroadcast)
  | clearFilters => exact reads_pure _
  | clearFiltersBroadcast => exact reads_pure _
  | addDbFile s => exact (reads_string _ s).map (g := addDbFile)
  | exportDb s => exact (reads_string _ s).map (g := exportDb)
  | exportDbBroadcast s => exact (reads_string _ s).map (g := exportDbBroadcast)
  | importDb s => exact (reads_string _ s).map (g := importDb)
  | importDbDistribute s => exact (reads_string _ s).map (g := importDbDistribute)
  | dbSize => exact reads_pure _
  | getState => exact reads_pure _
  | processing => exact reads_pure _
  | query ts =>
    simp only [payload]
    rw [← List.append_nil (List.flatMap _ ts)]
    exact reads_counted (g := fun tags => pure (query tags)) (k := 8) (by decide)
      (fun t _ => reads_string "tag" t) (fun t _ => by rw [Entry.length_string]; omega)
      (reads_pure _)
  | getEntries => exact reads_pure _
  | installedFilters => exact reads_pure _
  | printEntries => exact reads_pure _
  | process b => exact (reads_bool b).map (g := process)
  | processBroadcast => exact reads_pure _
  | algProcess => exact reads_pure _
  | startBarrierWait a b sent =>
    simp only [payload, List.append_assoc]
    rw [← List.append_nil (List.flatMap _ sent)]
    exact (hN.address a).bind ((reads_bool b).bind
      (reads_counted (g := fun sent => pure (startBarrierWait a b sent)) (k := 16) (by decide)
        (fun p _ => (hN.address p.1).bind ((reads_u64 p.2).map (g := fun c => (p.1, c))))
        (fun p _ => Nat.le_of_eq (length_sent p.1 p.2).symm) (reads_pure _)))
  | barrierMsgDist n => exact (reads_u64 n).map (g := barrierMsgDist)
  | atBarrier a => exact (hN.address a).map (g := atBarrier)
  | endBarrier => exact reads_pure _
  | algVertices a vs =>
    simp only [payload, List.append_assoc]
    rw [← List.append_nil (List.flatMap _ vs)]
    exact (hN.address a).bind
      (reads_counted (g := fun vs => pure (algVertices a vs)) (k := 16) (by decide)
        (fun p _ => (reads_u64 p.1).bind ((reads_i64 p.2).map (g := fun v => (p.1, v))))
        (fun p _ => Nat.le_of_eq (length_encodeVertex p).symm) (reads_pure _))
  | algInternalCompute a b i ms =>
    simp only [payload, List.append_assoc]
    rw [← List.append_nil (List.flatMap _ ms)]
    exact (hN.address a).bind ((reads_bool b).bind ((reads_u64 i).bind
      (reads_counted (g := fun ms => pure (algInternalCompute a b i ms)) (k := 24) (by decide)
        (fun m _ => reads_vertexMessage m)
        (fun m _ => by rw [length_encodeVertexMessage]; omega) (reads_pure _))))

/-- A message reads back from its frame. -/
theorem decode_encode_of_faithful (m : Message) (h : m.TagsAscending)
    (hfit : m.encode.length ≤ wordMax) : decode m.encode N = .ok m :=
  ((reads_u8 m.typeByte).bind (reads_body hN m h)).run hfit

end Faithful

theorem decode_encode (m : Message) (h : m.TagsAscending) (hfit : m.encode.length ≤ wordMax) :
    decode m.encode = .ok m :=
  decode_encode_of_faithful Normalizer.lenient_faithful m h hfit

end Message

namespace Reply

open Decoder

/-- The entries a reply carries: those of an entries reply, none otherwise. -/
def carried : Reply → List Entry
  | .entries es => es
  | _ => []

/-- The tags of every entry a reply carries are ascending, as a tag set keeps them. -/
def TagsAscending (r : Reply) : Prop := ∀ e ∈ r.carried, e.tags.Ascending

instance (r : Reply) : Decidable r.TagsAscending :=
  inferInstanceAs (Decidable (∀ e ∈ r.carried, e.tags.Ascending))

theorem length_sized (e : Entry) : (Encode.len e.size ++ e.encode).length = 8 + e.size := by
  rw [List.length_append, length_len, Entry.length_encode]

section Faithful

variable {N : Normalizer} (hN : N.Faithful)
include hN

/-- An entry of an entries reply reads back: its length, then exactly its binary form. -/
theorem reads_entry (e : Entry) (h : e.tags.Ascending) :
    Reads (entryDecoder N) e (Encode.len e.size ++ e.encode) := by
  intro rest hfit
  have hsize := Entry.length_encode e
  simp only [List.append_assoc, List.length_append, length_len] at hfit ⊢
  rw [entryDecoder, Decoder.bind_ok (len_encode (by omega) (by simp; omega)), ← hsize,
    Decoder.bind_ok (Decoder.take_append _ _), Entry.decode_encode_of_faithful hN e h (by omega)]
  rfl

/-- Every reply reads back from its frame. -/
theorem reads_frame (r : Reply) (h : r.TagsAscending) :
    Reads (do bodyDecoder (← Decoder.u8) N) r r.encode := by
  cases r with
  | ack => exact (reads_u8 0).bind (reads_pure _)
  | count n => exact (reads_u8 1).bind ((reads_u64 n).map (g := count))
  | flag b => exact (reads_u8 2).bind ((reads_bool b).map (g := flag))
  | text s => exact (reads_u8 3).bind ((reads_string _ s).map (g := text))
  | entries es =>
    simp only [encode]
    rw [← List.append_nil (List.flatMap _ es)]
    exact (reads_u8 4).bind (reads_counted (g := fun es => pure (entries es)) (k := 8)
      (by decide) (fun e he => reads_entry hN e (h e he)) (fun e _ => by rw [length_sized]; omega)
      (reads_pure _))
  | value v =>
    cases v with
    | none => exact (reads_u8 5).bind ((reads_bool false).bind (reads_pure _))
    | some v =>
      exact (reads_u8 5).bind ((reads_bool true).bind
        ((reads_bytes v).map (g := fun v => value (some v))))
  | peers as => exact (reads_u8 6).bind ((Message.reads_addresses hN as).map (g := peers))
  | error code message =>
    exact (reads_u8 0x7f).bind ((reads_string _ code).bind
      ((reads_string _ message).map (g := error code)))

/-- A reply reads back from its frame. -/
theorem decode_encode_of_faithful (r : Reply) (h : r.TagsAscending)
    (hfit : r.encode.length ≤ wordMax) : decode r.encode N = .ok r :=
  (reads_frame hN r h).run hfit

end Faithful

theorem decode_encode (r : Reply) (h : r.TagsAscending) (hfit : r.encode.length ≤ wordMax) :
    decode r.encode = .ok r :=
  decode_encode_of_faithful Normalizer.lenient_faithful r h hfit

end Reply

/-- Frames read back. Every message and every reply decodes from its frame to itself, when the
entries it carries keep their tags ascending and the frame is shorter than `2 ^ 64` bytes. The
elements of every counted list are as long as the decoder's length check assumes, or longer:
eight bytes for an address, a string and an entry with its length, sixteen for a barrier report
pair and a vertex, twenty-four for a vertex message. -/
theorem frames_read_back :
    (∀ m : Message, m.TagsAscending → m.encode.length ≤ Decoder.wordMax →
      Message.decode m.encode = .ok m) ∧
    (∀ r : Reply, r.TagsAscending → r.encode.length ≤ Decoder.wordMax →
      Reply.decode r.encode = .ok r) ∧
    (∀ a : Address, 8 ≤ (Encode.address a).length) ∧
    (∀ s : String, 8 ≤ (Encode.string s).length) ∧
    (∀ e : Entry, 8 ≤ (Encode.len e.size ++ e.encode).length) ∧
    (∀ (a : Address) (n : UInt64), 16 ≤ (Encode.address a ++ Bytes.ofU64 n).length) ∧
    (∀ v : GraphId × VertexId, 16 ≤ (Message.encodeVertex v).length) ∧
    (∀ m : VertexMessage, 24 ≤ (Message.encodeVertexMessage m).length) :=
  ⟨Message.decode_encode, Reply.decode_encode,
    fun a => Nat.le_of_eq (Message.length_address a).symm,
    fun s => by rw [Entry.length_string]; omega,
    fun e => by rw [Reply.length_sized]; omega,
    fun a n => Nat.le_of_eq (Message.length_sent a n).symm,
    fun v => Nat.le_of_eq (Message.length_encodeVertex v).symm,
    fun m => by rw [Message.length_encodeVertexMessage]; omega⟩

/-- A new entry with two tags, sent and listed in a reply, reads back. -/
theorem frames_read_back_entry :
    (Message.addEntry ⟨⟨1, -2, 3⟩, ⟨["a", "b"]⟩, [7]⟩).TagsAscending ∧
    (Message.addEntry ⟨⟨1, -2, 3⟩, ⟨["a", "b"]⟩, [7]⟩).encode.length ≤
      Decoder.wordMax ∧
    Message.decode (Message.addEntry ⟨⟨1, -2, 3⟩, ⟨["a", "b"]⟩, [7]⟩).encode =
      .ok (Message.addEntry ⟨⟨1, -2, 3⟩, ⟨["a", "b"]⟩, [7]⟩) ∧
    (Reply.entries [⟨⟨1, -2, 3⟩, ⟨["a", "b"]⟩, [7]⟩]).TagsAscending ∧
    (Reply.entries [⟨⟨1, -2, 3⟩, ⟨["a", "b"]⟩, [7]⟩]).encode.length ≤
      Decoder.wordMax ∧
    Reply.decode (Reply.entries [⟨⟨1, -2, 3⟩, ⟨["a", "b"]⟩, [7]⟩]).encode =
      .ok (Reply.entries [⟨⟨1, -2, 3⟩, ⟨["a", "b"]⟩, [7]⟩]) := by
  have hm : (Message.addEntry ⟨⟨1, -2, 3⟩, ⟨["a", "b"]⟩, [7]⟩).TagsAscending := by
    decide
  have hmfit : (Message.addEntry ⟨⟨1, -2, 3⟩, ⟨["a", "b"]⟩, [7]⟩).encode.length ≤
      Decoder.wordMax := by
    simp only [Message.encode, Message.payload, List.length_cons, Entry.length_encode]
    decide
  have hr : (Reply.entries [⟨⟨1, -2, 3⟩, ⟨["a", "b"]⟩, [7]⟩]).TagsAscending := by decide
  have hrfit : (Reply.entries [⟨⟨1, -2, 3⟩, ⟨["a", "b"]⟩, [7]⟩]).encode.length ≤
      Decoder.wordMax := by
    simp only [Reply.encode, List.length_cons, List.length_append, Decoder.length_len,
      List.flatMap_cons, List.flatMap_nil, List.append_nil, Entry.length_encode]
    decide
  exact ⟨hm, hmfit, frames_read_back.1 _ hm hmfit, hr, hrfit, frames_read_back.2.1 _ hr hrfit⟩

end ShardStore
