import ShardStore.Decimal.Shortest
/-!
Laying out the shortest digits of a double as text.

Two layouts are used. The JSON writer's goes positional for moderate magnitudes and writes an
exponent otherwise, and marks integral values with `.0`. The display layout of messages never
writes an exponent: the digits are padded with zeros to the left or right of the point as far
as needed, and an integral value has no point at all. Not-a-number and the infinities have no
digits; the display layout writes them `NaN`, `inf` and `-inf`.
-/

namespace ShardStore

namespace Decimal

/-- Where a float's digits go positional and how an exponent is written. -/
structure Layout where
  /-- Positional while the decimal point is at most this many digits right of the first. -/
  maxPoint : Int
  /-- Positional while the point is more than this many places left of the first digit. -/
  minPoint : Int
  /-- Write a plus sign in a positive exponent. -/
  plusSign : Bool
  /-- Write `.0` after an integral value. -/
  pointZero : Bool

/-- The layout of the JSON writer: positional from `1e-5` below `1e16`, `.0` on integral values,
otherwise one digit before the point and a signed exponent, as in `1e+300` and `1.5e-7`. -/
def Layout.standard : Layout := ⟨16, -5, true, true⟩

/-- The layout of messages: always positional, since a double's decimal point is never more than
325 places from its first digit, and no point on integral values. -/
def Layout.display : Layout := ⟨400, -400, false, false⟩

/-- Zeros. -/
def zeros (n : Nat) : String := String.ofList (List.replicate n '0')

/-- Lay out a sign and a decimal. -/
def Layout.render (l : Layout) (neg : Bool) (d : Dec) : String :=
  let sign := if neg then "-" else ""
  let point := if l.pointZero then ".0" else ""
  if d.digits = 0 then sign ++ "0" ++ point
  else
    let s := toString d.digits
    let len : Int := s.length
    let kk := len + d.exp
    let body :=
      if 0 ≤ d.exp ∧ kk ≤ l.maxPoint then s ++ zeros d.exp.toNat ++ point
      else if 0 < kk ∧ kk ≤ l.maxPoint then
        String.ofList (s.toList.take kk.toNat) ++ "." ++ String.ofList (s.toList.drop kk.toNat)
      else if l.minPoint < kk ∧ kk ≤ 0 then "0." ++ zeros (-kk).toNat ++ s
      else
        let e := kk - 1
        let mant := match s.toList with
          | c :: rest@(_ :: _) => String.ofList (c :: '.' :: rest)
          | cs => String.ofList cs
        let esign := if e < 0 then "-" else if l.plusSign then "+" else ""
        mant ++ "e" ++ esign ++ toString e.natAbs
    sign ++ body

/-- A double as messages show it: the display layout, or `NaN`, `inf` and `-inf`. -/
def display (x : Float) : String :=
  match ofFloat x with
  | some (neg, d) => Layout.display.render neg d
  | none => if x.isNaN then "NaN" else if x < 0 then "-inf" else "inf"

end Decimal

end ShardStore
