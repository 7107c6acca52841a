import ShardStore.Json.Value
import ShardStore.Bytes.Utf8
/-!
Reading JSON text.

The reader works on bytes. Blanks are space, tab, line feed and carriage return. Strings must be
UTF-8, may not hold control characters, and take the escapes of the JSON grammar, with surrogate
escapes only in pairs. Arrays and objects nest at most 127 deep, and a repeated object key keeps
its last value.

Numbers follow a fixed recipe. Digits accumulate into a 64-bit significand; an integer that
fits stays an integer (a negative one when it fits 64 signed bits and is not zero), and once the
significand would overflow, later integer digits only raise the decimal exponent and later
fraction digits are dropped. Anything else becomes a float: the significand rounded to a double,
then multiplied or divided by the double nearest to the power of ten, with powers beyond 308
taken in steps of `1e308`. A result that overflows is refused.

Every step consumes input, so a fuel of a few times the input length never runs out; running out
is reported like any other error.
-/

namespace ShardStore

namespace Json

/-- Bytes left to read. -/
abbrev Input := List UInt8

/-- The byte of an ASCII character. -/
def ascii (c : Char) : UInt8 := c.toNat.toUInt8

/-- The blanks between tokens. -/
def isBlankByte (b : UInt8) : Bool := b == 32 || b == 9 || b == 10 || b == 13

/-- Skip blanks. -/
def skipBlank (s : Input) : Input := s.dropWhile isBlankByte

/-- The digit a byte stands for. -/
def digitOf? (b : UInt8) : Option Nat := if 48 ≤ b ∧ b ≤ 57 then some (b.toNat - 48) else none

/-- The largest significand. -/
def sigMax : Nat := Nat.pow 2 64 - 1

/-- Whether `sig * 10 + d` would pass `bound`. -/
def overflows (sig d bound : Nat) : Bool := sig ≥ bound / 10 && (sig > bound / 10 || d > bound % 10)

/-- The double nearest to `10 ^ e`. -/
def pow10 (e : Nat) : Float := Float.ofScientific 1 false e

/-- `sig * 10 ^ exp` by the recipe: round the significand, then scale by the nearest powers of
ten; `none` when the result overflows. -/
def fromParts (neg : Bool) (sig : Nat) (exp : Int) : Option Float :=
  let rec go (f : Float) (exp : Int) : Nat → Option Float
    | 0 => some f
    | fuel + 1 =>
      if exp.natAbs ≤ 308 then
        if exp ≥ 0 then
          let g := f * pow10 exp.toNat
          if g.isInf then none else some g
        else some (f / pow10 exp.natAbs)
      else if f == 0 then some f
      else if exp ≥ 0 then none
      else go (f / pow10 308) (exp + 308) fuel
  (go (UInt64.ofNat sig).toFloat exp 16).map fun f => if neg then -f else f

/-- Digits as a number and the bytes after them. -/
def takeDigits (s : Input) : List Nat × Input :=
  let ds := s.takeWhile fun b => (digitOf? b).isSome
  (ds.map fun b => b.toNat - 48, s.drop ds.length)

/-- Fold digits into a significand until it would overflow; the digits not taken are returned. -/
def accumulate (sig : Nat) : List Nat → Nat × List Nat
  | [] => (sig, [])
  | d :: ds => if overflows sig d sigMax then (sig, d :: ds) else accumulate (sig * 10 + d) ds

/-- The exponent part after `e` or `E`, then the float. -/
def exponentPart (neg : Bool) (sig : Nat) (start : Int) (s : Input) :
    Except String (Json × Input) := do
  let (expNeg, s) := match s with
    | 43 :: rest => (false, rest)
    | 45 :: rest => (true, rest)
    | _ => (false, s)
  let (ds, rest) := takeDigits s
  if ds.isEmpty then throw "invalid number"
  let i32max : Nat := Nat.pow 2 31 - 1
  let (e, left) := ds.foldl (fun (acc : Nat × Bool) d =>
    if acc.2 then acc else if overflows acc.1 d i32max then (acc.1, true) else (acc.1 * 10 + d, false))
    (0, false)
  if left then
    if sig ≠ 0 ∧ !expNeg then throw "number out of range"
    pure (.float (if neg then -0.0 else 0.0), rest)
  else
    let lo : Int := -(Int.pow 2 31)
    let hi : Int := Int.pow 2 31 - 1
    let fin := if expNeg then max lo (start - e) else min hi (start + e)
    match fromParts neg sig fin with
    | some f => pure (.float f, rest)
    | none => throw "number out of range"

/-- What follows the integer digits: a fraction, an exponent, or the end of the number. -/
def afterFraction (neg : Bool) (sig : Nat) (exp : Int) (s : Input) :
    Except String (Json × Input) :=
  match s with
  | 101 :: rest | 69 :: rest => exponentPart neg sig exp rest
  | _ => match fromParts neg sig exp with
    | some f => pure (.float f, s)
    | none => throw "number out of range"

/-- The fraction after the point. -/
def fractionPart (neg : Bool) (sig : Nat) (exp : Int) (s : Input) : Except String (Json × Input) :=
  let (ds, rest) := takeDigits s
  if ds.isEmpty then throw "invalid number"
  else
    let (sig', dropped) := accumulate sig ds
    let used := ds.length - dropped.length
    afterFraction neg sig' (exp - used) rest

/-- A number, after an optional minus sign has been read. -/
def number (neg : Bool) (s : Input) : Except String (Json × Input) := do
  let (ds, rest) := takeDigits s
  match ds with
  | [] => throw "invalid number"
  | 0 :: _ :: _ => throw "invalid number"
  | _ =>
    let (sig, extra) := accumulate 0 ds
    if !extra.isEmpty then
      -- a long integer: the remaining digits scale the significand
      match rest with
      | 46 :: more => fractionPart neg sig extra.length more
      | _ => afterFraction neg sig extra.length rest
    else match rest with
      | 46 :: more => fractionPart neg sig 0 more
      | 101 :: more | 69 :: more => exponentPart neg sig 0 more
      | _ =>
        if !neg then pure (.nat sig, rest)
        else if sig = 0 then pure (.float (-0.0), rest)
        else if sig ≤ Nat.pow 2 63 then pure (.neg (-(sig : Int)), rest)
        else pure (.float (-(UInt64.ofNat sig).toFloat), rest)

/-- The value of a hexadecimal digit byte. -/
def hexOf? (b : UInt8) : Option Nat := Bytes.digitValue? (Char.ofNat b.toNat)

/-- Four hexadecimal digits. -/
def hex4? : Input → Option (Nat × Input)
  | a :: b :: c :: d :: rest => do
    let a ← hexOf? a
    let b ← hexOf? b
    let c ← hexOf? c
    let d ← hexOf? d
    pure (((a * 16 + b) * 16 + c) * 16 + d, rest)
  | _ => none

/-- The UTF-8 bytes of a code point. -/
def utf8 (n : Nat) : List UInt8 := (String.singleton (Char.ofNat n)).toUTF8.toList

/-- The text of a string after its opening quote, and the bytes after the closing quote. -/
def stringBody (acc : List UInt8) : Input → Nat → Except String (String × Input)
  | _, 0 => throw "input too deep"
  | [], _ => throw "EOF while parsing a string"
  | b :: rest, fuel + 1 =>
    if b == 34 then
      match Bytes.utf8? acc.reverse with
      | some t => pure (t, rest)
      | none => throw "invalid unicode code point"
    else if b == 92 then
      match rest with
      | 34 :: r => stringBody (34 :: acc) r fuel
      | 92 :: r => stringBody (92 :: acc) r fuel
      | 47 :: r => stringBody (47 :: acc) r fuel
      | 98 :: r => stringBody (8 :: acc) r fuel
      | 102 :: r => stringBody (12 :: acc) r fuel
      | 110 :: r => stringBody (10 :: acc) r fuel
      | 114 :: r => stringBody (13 :: acc) r fuel
      | 116 :: r => stringBody (9 :: acc) r fuel
      | 117 :: r =>
        match hex4? r with
        | none => throw "invalid escape"
        | some (n, r) =>
          if 0xDC00 ≤ n ∧ n ≤ 0xDFFF then throw "lone leading surrogate in hex escape"
          else if 0xD800 ≤ n ∧ n ≤ 0xDBFF then
            match r with
            | 92 :: 117 :: r =>
              match hex4? r with
              | some (m, r) =>
                if 0xDC00 ≤ m ∧ m ≤ 0xDFFF then
                  let cp := 0x10000 + (n - 0xD800) * 0x400 + (m - 0xDC00)
                  stringBody ((utf8 cp).reverse ++ acc) r fuel
                else throw "lone leading surrogate in hex escape"
              | none => throw "invalid escape"
            | _ => throw "unexpected end of hex escape"
          else stringBody ((utf8 n).reverse ++ acc) r fuel
      | _ => throw "invalid escape"
    else if b < 32 then throw "control character found while parsing a string"
    else stringBody (b :: acc) rest fuel

/-- A literal word such as `true`. -/
def literal (word : String) (v : Json) (s : Input) : Except String (Json × Input) :=
  let w := word.toUTF8.toList
  if s.take w.length == w then pure (v, s.drop w.length) else throw "expected ident"

mutual

/-- One value, with `room` levels of nesting left. -/
def value (room : Nat) : Input → Nat → Except String (Json × Input)
  | _, 0 => throw "input too deep"
  | s, fuel + 1 =>
    match skipBlank s with
    | [] => throw "EOF while parsing a value"
    | b :: rest =>
      if b == 110 then literal "ull" .null rest
      else if b == 116 then literal "rue" (.bool true) rest
      else if b == 102 then literal "alse" (.bool false) rest
      else if b == 34 then do
        let (t, r) ← stringBody [] rest fuel
        pure (.str t, r)
      else if b == 45 then number true rest
      else if (digitOf? b).isSome then number false (b :: rest)
      else if b == 91 then
        if room ≤ 1 then throw "recursion limit exceeded"
        else
          match skipBlank rest with
          | 93 :: r => pure (.arr [], r)
          | r => items (room - 1) [] r fuel
      else if b == 123 then
        if room ≤ 1 then throw "recursion limit exceeded"
        else
          match skipBlank rest with
          | 125 :: r => pure (.obj [], r)
          | r => members (room - 1) [] r fuel
      else throw "expected value"

/-- Array items after the opening bracket or a comma. -/
def items (room : Nat) (acc : List Json) : Input → Nat → Except String (Json × Input)
  | _, 0 => throw "input too deep"
  | s, fuel + 1 => do
    let (v, r) ← value room s fuel
    match skipBlank r with
    | 44 :: r =>
      match skipBlank r with
      | 93 :: _ => throw "trailing comma"
      | r => items room (v :: acc) r fuel
    | 93 :: r => pure (.arr (v :: acc).reverse, r)
    | [] => throw "EOF while parsing a list"
    | _ => throw "expected , or ]"

/-- Object members after the opening brace or a comma. -/
def members (room : Nat) (acc : List (String × Json)) : Input → Nat →
    Except String (Json × Input)
  | _, 0 => throw "input too deep"
  | s, fuel + 1 => do
    match skipBlank s with
    | 34 :: r =>
      let (k, r) ← stringBody [] r fuel
      match skipBlank r with
      | 58 :: r =>
        let (v, r) ← value room r fuel
        let acc := insertField k v acc
        match skipBlank r with
        | 44 :: r =>
          match skipBlank r with
          | 125 :: _ => throw "trailing comma"
          | r => members room acc r fuel
        | 125 :: r => pure (.obj acc, r)
        | [] => throw "EOF while parsing an object"
        | _ => throw "expected , or \x7d"
      | [] => throw "EOF while parsing an object"
      | _ => throw "expected :"
    | [] => throw "EOF while parsing an object"
    | _ => throw "key must be a string"

end

/-- A whole document: one value and nothing but blanks after it. -/
def parseBytes (s : Input) : Except String Json := do
  let (v, rest) ← value 128 s (4 * s.length + 8)
  if (skipBlank rest).isEmpty then pure v else throw "trailing characters"

/-- A whole document given as text. -/
def parse (s : String) : Except String Json := parseBytes s.toUTF8.toList

end Json

end ShardStore
