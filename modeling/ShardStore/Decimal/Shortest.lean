/-!
Shortest decimal digits of a binary64 value.

A finite double stands for the interval of reals that round to it: from halfway to the neighbour
below to halfway to the neighbour above, ends included exactly when the significand is even, and
with a narrower gap below a power of two. The digits printed are those of the decimal with the
fewest significant digits in that interval; of two such decimals the nearer one, and of two
equally near ones the larger. Everything is decided by exact comparison of natural numbers, so
the result depends on nothing but the bits.
-/

namespace ShardStore

namespace Decimal

/-- A finite non-negative binary64 value `m * 2 ^ q`. -/
structure Binary where
  m : Nat
  q : Int
  /-- The gap to the value below is half the gap to the value above. -/
  narrowBelow : Bool

/-- The magnitude of a finite value from its bits; the sign bit is ignored. -/
def Binary.ofBits (b : UInt64) : Binary :=
  let e := ((b >>> 52) &&& 0x7FF).toNat
  let f := (b &&& 0xFFFFFFFFFFFFF).toNat
  if e == 0 then ⟨f, -1074, false⟩ else ⟨Nat.pow 2 52 + f, (e : Int) - 1075, f == 0 && e > 1⟩

/-- A decimal `digits * 10 ^ exp`. -/
structure Dec where
  digits : Nat
  exp : Int
deriving Repr, DecidableEq

/-- Compare `a * 10 ^ i` with `n * 2 ^ j` exactly. -/
def cmpScaled (a : Nat) (i : Int) (n : Nat) (j : Int) : Ordering :=
  compare (a * Nat.pow 10 i.toNat * Nat.pow 2 (-j).toNat)
    (n * Nat.pow 2 j.toNat * Nat.pow 10 (-i).toNat)

/-- Whether a decimal lies among the reals that round to the value. -/
def Binary.readsBack (x : Binary) (d : Dec) : Bool :=
  let lo := if x.narrowBelow then 4 * x.m - 1 else 4 * x.m - 2
  let hi := 4 * x.m + 2
  let incl := x.m % 2 == 0
  let cl := cmpScaled d.digits d.exp lo (x.q - 2)
  let ch := cmpScaled d.digits d.exp hi (x.q - 2)
  (cl == .gt || (incl && cl == .eq)) && (ch == .lt || (incl && ch == .eq))

/-- The least `k` with `m * 2 ^ q < 10 ^ k`, estimated from the binary length and corrected by
exact comparison. -/
def Binary.scale (x : Binary) : Int :=
  let est : Int := ((Nat.log2 x.m : Int) + x.q) * 30103 / 100000
  let below (k : Int) : Bool := cmpScaled 1 k x.m x.q == .gt
  let up := [est - 2, est - 1, est, est + 1, est + 2, est + 3]
  (up.find? below).getD (est + 4)

/-- `⌊m * 2 ^ q / 10 ^ e⌋`. -/
def Binary.quotient (x : Binary) (e : Int) : Nat :=
  (x.m * Nat.pow 2 x.q.toNat * Nat.pow 10 (-e).toNat) / (Nat.pow 2 (-x.q).toNat * Nat.pow 10 e.toNat)

/-- The neighbours of the value on the grid `10 ^ e` that read back; of two, the nearer, and the
larger on a tie. -/
def Binary.onGrid (x : Binary) (e : Int) : Option Dec :=
  let t := x.quotient e
  let lo : Dec := ⟨t, e⟩
  let hi : Dec := ⟨t + 1, e⟩
  match x.readsBack lo, x.readsBack hi with
  | true, true =>
    -- twice the value against the sum of the two neighbours
    if cmpScaled (2 * t + 1) e (2 * x.m) x.q == .gt then some lo else some hi
  | true, false => some lo
  | false, true => some hi
  | false, false => none

/-- Move trailing zeros of the digits into the exponent. -/
def Dec.strip (d : Dec) (fuel : Nat := 400) : Dec :=
  match fuel with
  | 0 => d
  | fuel + 1 =>
    if d.digits ≠ 0 ∧ d.digits % 10 = 0 then Dec.strip ⟨d.digits / 10, d.exp + 1⟩ fuel else d

/-- The shortest decimal that reads back as a positive finite value; grids of one to seventeen
digits are tried in turn, and the exact value is the answer if none has a hit. -/
def Binary.shortest (x : Binary) : Dec :=
  let k := x.scale
  let found := (List.range 17).findSome? fun n => x.onGrid (k - (n + 1 : Nat))
  match found with
  | some d => d.strip
  | none => (Dec.strip ⟨x.m * Nat.pow 5 (-x.q).toNat * Nat.pow 2 x.q.toNat, -((-x.q).toNat : Int)⟩)

/-- A finite double as a sign and its shortest decimal; zero has zero digits. `none` for NaN and
the infinities. -/
def ofFloat (f : Float) : Option (Bool × Dec) :=
  let b := f.toBits
  let neg := b >>> 63 == 1
  let e := (b >>> 52) &&& 0x7FF
  if e == 0x7FF then none
  else if b &&& 0x7FFFFFFFFFFFFFFF == 0 then some (neg, ⟨0, 0⟩)
  else some (neg, (Binary.ofBits b).shortest)

end Decimal

end ShardStore
