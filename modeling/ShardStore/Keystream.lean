/-!
The keystream random keys are drawn from.

A 64-bit seed is stretched into a 256-bit key by a permuted congruential generator: its state
starts at the seed, is advanced before each output, and each of its eight 32-bit outputs is one
word of the key. The key drives the ChaCha block function with twelve rounds, a block counter
starting at zero and a zero stream number. The keystream is the blocks' sixteen words one after
another, and a 64-bit draw takes two consecutive words, the low one first. Draws always start at
an even word, so a draw never spans two blocks, and the `j`-th draw is read straight off block
`j / 8` without computing the ones before it.
-/

namespace ShardStore

namespace Keystream

/-- Rotate a word left. -/
def rotl (x : UInt32) (n : UInt32) : UInt32 := (x <<< n) ||| (x >>> (32 - n))

/-- Rotate a word right; a rotation by zero leaves it as it is. -/
def rotr (x : UInt32) (n : UInt32) : UInt32 := (x >>> n) ||| (x <<< ((32 - n) % 32))

/-- The quarter round on four positions of the state. -/
def quarter (s : Array UInt32) (a b c d : Nat) : Array UInt32 :=
  let w := fun i => s.getD i 0
  let xa := w a + w b
  let xd := rotl (w d ^^^ xa) 16
  let xc := w c + xd
  let xb := rotl (w b ^^^ xc) 12
  let xa := xa + xb
  let xd := rotl (xd ^^^ xa) 8
  let xc := xc + xd
  let xb := rotl (xb ^^^ xc) 7
  ((((s.setIfInBounds a xa).setIfInBounds b xb).setIfInBounds c xc).setIfInBounds d xd)

/-- A column round and a diagonal round. -/
def doubleRound (s : Array UInt32) : Array UInt32 :=
  let s := quarter s 0 4 8 12
  let s := quarter s 1 5 9 13
  let s := quarter s 2 6 10 14
  let s := quarter s 3 7 11 15
  let s := quarter s 0 5 10 15
  let s := quarter s 1 6 11 12
  let s := quarter s 2 7 8 13
  quarter s 3 4 9 14

/-- The block of a key at a counter: twelve rounds, and the starting state added back. -/
def block (key : List UInt32) (counter : UInt64) : Array UInt32 :=
  let constants : Array UInt32 := #[0x61707865, 0x3320646e, 0x79622d32, 0x6b206574]
  let start := constants ++ key.toArray ++ #[counter.toUInt32, (counter >>> 32).toUInt32, 0, 0]
  let mixed := (List.range 6).foldl (fun s _ => doubleRound s) start
  mixed.zipWith (· + ·) start

/-- The next state of the congruential generator. -/
def advance (state : UInt64) : UInt64 := state * 6364136223846793005 + 11634580027462260723

/-- The output of the congruential generator at a state. -/
def output (state : UInt64) : UInt32 :=
  rotr (((state >>> 18) ^^^ state) >>> 27).toUInt32 (state >>> 59).toUInt32

/-- The key a seed stretches to. -/
def keyOf (seed : UInt64) : List UInt32 :=
  ((List.range 8).foldl (fun (acc : List UInt32 × UInt64) _ =>
    let state := advance acc.2
    (output state :: acc.1, state)) ([], seed)).1.reverse

/-- The `j`-th 64-bit draw of a seed's keystream. -/
def draw (seed : UInt64) (j : Nat) : UInt64 :=
  let words := block (keyOf seed) (UInt64.ofNat (j / 8))
  let i := 2 * (j % 8)
  (words.getD i 0).toUInt64 ||| ((words.getD (i + 1) 0).toUInt64 <<< 32)

end Keystream

end ShardStore
