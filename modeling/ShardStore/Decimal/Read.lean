import ShardStore.Decimal.Shortest
/-!
Reading a double from decimal text.

The grammar is an optional sign, then either one of the words `inf`, `infinity` and `nan` in any
case, or digits with an optional fraction and an optional exponent, with at least one digit
before or after the point. The value is the double nearest to the decimal, ties going to the
even significand, so every decimal is read exactly as a correctly rounding reader would; too
large a magnitude reads as infinity and too small a one as zero.

The nearest double to a positive fraction `num / den` is found with natural numbers alone: the
scale `k` puts the quotient `num / (den * 2 ^ k)` among the 53-bit significands (or at the
subnormal scale), and the remainder decides the rounding.
-/

namespace ShardStore

namespace Decimal

/-- Positive infinity. -/
def infinity : Float := 1.0 / 0.0

/-- The quotient and remainder of `num / (den * 2 ^ k)`, with the divisor. -/
def scaledDiv (num den : Nat) (k : Int) : Nat × Nat × Nat :=
  if 0 ≤ k then
    let d := den * Nat.pow 2 k.toNat
    (num / d, num % d, d)
  else
    let n := num * Nat.pow 2 k.natAbs
    (n / den, n % den, den)

/-- The double nearest to `num / den` for positive `num` and `den`. -/
def nearestRatio (num den : Nat) : Float :=
  let k0 : Int := (Nat.log2 num : Int) - (Nat.log2 den : Int) - 52
  let k := if (scaledDiv num den k0).1 ≥ Nat.pow 2 52 then k0 else k0 - 1
  let k := max k (-1074)
  let (q, r, d) := scaledDiv num den k
  let q := if 2 * r > d ∨ (2 * r = d ∧ q % 2 = 1) then q + 1 else q
  let (q, k) := if q = Nat.pow 2 53 then (Nat.pow 2 52, k + 1) else (q, k)
  if k > 971 then infinity
  else (UInt64.ofNat q).toFloat.scaleB k

/-- The double nearest to `digits * 10 ^ exp`. Magnitudes far outside the range of doubles are
settled without computing the power. -/
def nearest (digits : Nat) (exp : Int) : Float :=
  if digits = 0 then 0.0
  else
    let magnitude : Int := (toString digits).length + exp
    if magnitude > 310 then infinity
    else if magnitude < -330 then 0.0
    else if 0 ≤ exp then nearestRatio (digits * Nat.pow 10 exp.toNat) 1
    else nearestRatio digits (Nat.pow 10 exp.natAbs)

/-- Digits and what follows them. -/
def spanDigits (cs : List Char) : List Char × List Char :=
  (cs.takeWhile Char.isDigit, cs.dropWhile Char.isDigit)

/-- The number that decimal digits spell. -/
def digitsValue (ds : List Char) : Nat := ds.foldl (fun n c => n * 10 + (c.toNat - 48)) 0

/-- The exponent after `e` or `E`: a sign and at least one digit, and nothing after them. -/
def exponent? (cs : List Char) : Option Int :=
  let (neg, rest) := match cs with
    | '+' :: r => (false, r)
    | '-' :: r => (true, r)
    | r => (false, r)
  let (ds, after) := spanDigits rest
  if ds.isEmpty || !after.isEmpty then none
  else
    let e : Int := digitsValue ds
    some (if neg then -e else e)

/-- An unsigned decimal: digits, a fraction, an exponent. -/
def unsigned? (cs : List Char) : Option Float := do
  let (whole, rest) := spanDigits cs
  let (frac, rest) := match rest with
    | '.' :: r => spanDigits r
    | r => ([], r)
  if whole.isEmpty && frac.isEmpty then none
  let e ← match rest with
    | [] => some 0
    | 'e' :: r | 'E' :: r => exponent? r
    | _ => none
  -- an exponent beyond any double's range only decides between zero and infinity
  let e := max (min e 100000) (-100000)
  pure (nearest (digitsValue (whole ++ frac)) (e - frac.length))

/-- Read a double: a sign, then a word for a special value or an unsigned decimal. -/
def readFloat? (s : String) : Option Float :=
  let (neg, body) := match s.toList with
    | '+' :: r => (false, r)
    | '-' :: r => (true, r)
    | r => (false, r)
  let word := String.ofList (body.map Char.toLower)
  let v :=
    if word == "inf" || word == "infinity" then some infinity
    else if word == "nan" then some (0.0 / 0.0)
    else unsigned? body
  v.map fun f => if neg then -f else f

end Decimal

end ShardStore
