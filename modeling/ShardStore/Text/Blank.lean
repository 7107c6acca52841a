/-!
Blanks and unsigned numbers in text.

Blanks are the characters with the Unicode White_Space property, which is what trimming removes.
An unsigned number is an optional plus sign and at least one ASCII digit, nothing else, below a
bound.
-/

namespace ShardStore

namespace Text

/-- Characters with the Unicode White_Space property. -/
def isBlank (c : Char) : Bool :=
  let n := c.toNat
  (9 ≤ n ∧ n ≤ 13) ∨ n = 32 ∨ n = 0x85 ∨ n = 0xA0 ∨ n = 0x1680 ∨ (0x2000 ≤ n ∧ n ≤ 0x200A) ∨
    n = 0x2028 ∨ n = 0x2029 ∨ n = 0x202F ∨ n = 0x205F ∨ n = 0x3000

/-- Drop blanks at both ends. -/
def trim (cs : List Char) : List Char :=
  ((cs.dropWhile isBlank).reverse.dropWhile isBlank).reverse

/-- A run of ASCII digits as a number; an empty run is refused. -/
def digits? (cs : List Char) : Option Nat :=
  if cs.isEmpty ∨ !cs.all Char.isDigit then none
  else some (cs.foldl (fun n c => 10 * n + (c.toNat - 48)) 0)

/-- An optional plus sign and digits, as a number below `bound`. -/
def unsigned? (cs : List Char) (bound : Nat) : Option Nat := do
  let ds := match cs with
    | '+' :: rest => rest
    | _ => cs
  let n ← digits? ds
  if n < bound then some n else none

end Text

end ShardStore
