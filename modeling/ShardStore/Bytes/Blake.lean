import ShardStore.Bytes.Word
/-!
The BLAKE3 hash, in unkeyed hashing mode.

Input is cut into chunks of 1024 bytes and chunks into blocks of 64. A chunk chains its blocks
through the compression function; chunk chaining values are joined pairwise in a left-balanced
binary tree whose left side holds the largest power of two of chunks smaller than the whole;
the root is compressed once more with the root flag and its first words are the digest. Ring
positions and key ownership read the first eight digest bytes, so the whole digest is here, as
the standard defines it, and nothing about it depends on the machine.
-/

namespace ShardStore

namespace Blake

/-- The initialisation vector, shared with SHA-256. -/
def iv : Vector UInt32 8 :=
  #v[0x6A09E667, 0xBB67AE85, 0x3C6EF372, 0xA54FF53A, 0x510E527F, 0x9B05688C, 0x1F83D9AB, 0x5BE0CD19]

/-- Where each message word moves between rounds. -/
def permutation : Vector (Fin 16) 16 := #v[2, 6, 3, 10, 7, 0, 4, 13, 1, 11, 12, 5, 9, 14, 15, 8]

/-- Domain flags of a compression. -/
def chunkStart : UInt32 := 1
def chunkEnd : UInt32 := 2
def parent : UInt32 := 4
def root : UInt32 := 8

/-- Rotation to the right by `n` bits, `0 < n < 32`. -/
def rotr (x : UInt32) (n : UInt32) : UInt32 := (x >>> n) ||| (x <<< (32 - n))

/-- The quarter-round on state words `a b c d` with message words `mx my`. -/
def mix (s : Vector UInt32 16) (a b c d : Fin 16) (mx my : UInt32) : Vector UInt32 16 :=
  let s := s.set a (s[a] + s[b] + mx)
  let s := s.set d (rotr (s[d] ^^^ s[a]) 16)
  let s := s.set c (s[c] + s[d])
  let s := s.set b (rotr (s[b] ^^^ s[c]) 12)
  let s := s.set a (s[a] + s[b] + my)
  let s := s.set d (rotr (s[d] ^^^ s[a]) 8)
  let s := s.set c (s[c] + s[d])
  s.set b (rotr (s[b] ^^^ s[c]) 7)

/-- One round: the columns, then the diagonals. -/
def round (s : Vector UInt32 16) (m : Vector UInt32 16) : Vector UInt32 16 :=
  let s := mix s 0 4 8 12 m[0] m[1]
  let s := mix s 1 5 9 13 m[2] m[3]
  let s := mix s 2 6 10 14 m[4] m[5]
  let s := mix s 3 7 11 15 m[6] m[7]
  let s := mix s 0 5 10 15 m[8] m[9]
  let s := mix s 1 6 11 12 m[10] m[11]
  let s := mix s 2 7 8 13 m[12] m[13]
  mix s 3 4 9 14 m[14] m[15]

/-- The message words in the order the next round reads them. -/
def permute (m : Vector UInt32 16) : Vector UInt32 16 :=
  Vector.ofFn fun i => m[permutation[i]]

/-- Seven rounds with a permutation of the message between each two. -/
def rounds (s m : Vector UInt32 16) : Nat → Vector UInt32 16
  | 0 => s
  | k + 1 => rounds (round s m) (permute m) k

/-- The compression function: a chaining value, a block, the chunk counter, the block length and
the flags give sixteen output words. -/
def compress (cv : Vector UInt32 8) (block : Vector UInt32 16) (counter : UInt64)
    (len flags : UInt32) : Vector UInt32 16 :=
  let s : Vector UInt32 16 :=
    #v[cv[0], cv[1], cv[2], cv[3], cv[4], cv[5], cv[6], cv[7], iv[0], iv[1], iv[2], iv[3],
      counter.toUInt32, (counter >>> 32).toUInt32, len, flags]
  let s := rounds s block 7
  Vector.ofFn fun i =>
    if h : i.val < 8 then s[i] ^^^ s[i.val + 8]
    else s[i] ^^^ cv[i.val - 8]

/-- Sixteen little-endian words of a block, zero-padded to 64 bytes. -/
def words (block : Bytes) : Vector UInt32 16 :=
  Vector.ofFn fun i => Bytes.toU32 ((block.drop (4 * i.val)).take 4)

/-- The first eight words of a compression: the chaining value it passes on. -/
def chain (out : Vector UInt32 16) : Vector UInt32 8 := Vector.ofFn fun i => out[i.val]

/-- A compression not yet run, so that the root flag can still be added. -/
structure Pending where
  cv : Vector UInt32 8
  block : Vector UInt32 16
  counter : UInt64
  len : UInt32
  flags : UInt32

/-- The chaining value of a pending compression that is not the root. -/
def Pending.chainValue (p : Pending) : Vector UInt32 8 :=
  chain (compress p.cv p.block p.counter p.len p.flags)

/-- The blocks of a chunk; an empty chunk has one empty block. -/
def blocks (chunk : Bytes) : List Bytes :=
  if chunk.length ≤ 64 then [chunk] else chunk.take 64 :: blocks (chunk.drop 64)
termination_by chunk.length
decreasing_by simp only [List.length_drop]; omega

/-- Chain the blocks of a chunk, leaving the last one pending. -/
def chunkBlocks (cv : Vector UInt32 8) (counter : UInt64) (first : Bool) :
    List Bytes → Pending
  | [] => ⟨cv, words [], counter, 0, (if first then chunkStart else 0) ||| chunkEnd⟩
  | [b] => ⟨cv, words b, counter, b.length.toUInt32,
      (if first then chunkStart else 0) ||| chunkEnd⟩
  | b :: rest@(_ :: _) =>
    let out := compress cv (words b) counter 64 (if first then chunkStart else 0)
    chunkBlocks (chain out) counter false rest

/-- The pending last compression of chunk number `counter`. -/
def chunkOutput (chunk : Bytes) (counter : Nat) : Pending :=
  chunkBlocks iv counter.toUInt64 true (blocks chunk)

/-- The chunks of an input; an empty input has one empty chunk. -/
def chunks (input : Bytes) : List Bytes :=
  if input.length ≤ 1024 then [input] else input.take 1024 :: chunks (input.drop 1024)
termination_by input.length
decreasing_by simp only [List.length_drop]; omega

/-- The parent node over two chaining values. -/
def parentOutput (left right : Vector UInt32 8) : Pending :=
  ⟨iv, Vector.ofFn (fun i => if h : i.val < 8 then left[i.val] else right[i.val - 8]), 0, 64,
    parent⟩

/-- The pending root of the subtree over `cs`, whose first chunk has number `start`. The left
subtree holds the largest power of two of chunks that is smaller than the whole. -/
def subtree (cs : List Bytes) (start : Nat) : Pending :=
  if h : cs.length ≤ 1 then chunkOutput (cs.headD []) start
  else
    let left := 2 ^ Nat.log2 (cs.length - 1)
    have hl : left ≤ cs.length - 1 := Nat.log2_self_le (by omega)
    have hp : 0 < left := Nat.pow_pos (by decide)
    parentOutput (subtree (cs.take left) start).chainValue
      (subtree (cs.drop left) (start + left)).chainValue
termination_by cs.length
decreasing_by
  · simp only [List.length_take]; omega
  · simp only [List.length_drop]; omega

/-- The 32-byte digest. -/
def hash (input : Bytes) : Bytes :=
  let p := subtree (chunks input) 0
  let out := compress p.cv p.block p.counter p.len (p.flags ||| root)
  (List.finRange 8).flatMap fun i => Bytes.ofU32 out[i]

end Blake

end ShardStore
