/-!
Little-endian words and hexadecimal text.

Every fixed-width number on the wire and in a hash input is written least significant byte
first. `Bytes.le n v` writes the low `n` bytes of `v` and `Bytes.leValue` reads a list back as a
number; `leValue_le` says that reading undoes writing below `256 ^ n`, which is what the codec's
round trip rests on.
-/

namespace ShardStore

/-- Raw bytes: entry values, frames and hash inputs. -/
abbrev Bytes := List UInt8

namespace Bytes

/-- The low `n` bytes of `v`, least significant first. -/
def le : Nat → Nat → Bytes
  | 0, _ => []
  | n + 1, v => v.toUInt8 :: le n (v / 256)

/-- The number a little-endian byte list denotes. -/
def leValue : Bytes → Nat
  | [] => 0
  | b :: bs => b.toNat + 256 * leValue bs

@[simp] theorem length_le (n v : Nat) : (le n v).length = n := by
  induction n generalizing v with
  | zero => rfl
  | succ n ih => simp [le, ih]

theorem leValue_lt (bs : Bytes) : leValue bs < Nat.pow 256 bs.length := by
  induction bs with
  | nil => decide
  | cons b bs ih =>
    have hb := b.toNat_lt
    have hp : Nat.pow 256 (bs.length + 1) = Nat.pow 256 bs.length * 256 := rfl
    simp only [leValue, List.length_cons, hp]
    omega

/-- Reading back the low `n` bytes gives the number modulo `256 ^ n`. -/
theorem leValue_le (n v : Nat) : leValue (le n v) = v % Nat.pow 256 n := by
  induction n generalizing v with
  | zero => exact (Nat.mod_one v).symm
  | succ n ih =>
    have h1 : v.toUInt8.toNat = v % 256 := by simp [Nat.toUInt8]
    have hp : Nat.pow 256 (n + 1) = 256 * Nat.pow 256 n := Nat.mul_comm _ _
    simp only [le, leValue, ih, h1]
    rw [hp, Nat.mod_mul]

theorem le_leValue (bs : Bytes) : le bs.length (leValue bs) = bs := by
  induction bs with
  | nil => rfl
  | cons b bs ih =>
    have hb := b.toNat_lt
    have hdiv : (b.toNat + 256 * leValue bs) / 256 = leValue bs := by omega
    simp only [List.length_cons, le, leValue, hdiv, ih, List.cons.injEq, and_true]
    apply UInt8.toNat_inj.mp
    have h1 : (b.toNat + 256 * leValue bs).toUInt8.toNat = (b.toNat + 256 * leValue bs) % 256 := by
      simp [Nat.toUInt8]
    rw [h1]
    omega

/-- The eight bytes of a 64-bit word. -/
def ofU64 (x : UInt64) : Bytes := le 8 x.toNat

/-- The four bytes of a 32-bit word. -/
def ofU32 (x : UInt32) : Bytes := le 4 x.toNat

/-- The two bytes of a 16-bit word. -/
def ofU16 (x : UInt16) : Bytes := le 2 x.toNat

/-- A signed 64-bit word in two's complement. -/
def ofI64 (x : Int64) : Bytes := ofU64 x.toUInt64

/-- The 64-bit word in the first eight bytes; missing bytes count as zero. -/
def toU64 (bs : Bytes) : UInt64 := UInt64.ofNat (leValue (bs.take 8))

/-- The 16-bit word in the first two bytes. -/
def toU16 (bs : Bytes) : UInt16 := UInt16.ofNat (leValue (bs.take 2))

/-- The 32-bit word in the first four bytes. -/
def toU32 (bs : Bytes) : UInt32 := UInt32.ofNat (leValue (bs.take 4))

/-- The signed word in the first eight bytes. -/
def toI64 (bs : Bytes) : Int64 := (toU64 bs).toInt64

/-- The digit of a nibble, lowercase. -/
def hexDigit (n : Nat) : Char :=
  if n < 10 then Char.ofNat (48 + n) else Char.ofNat (87 + n)

/-- Lowercase hexadecimal, two digits a byte. -/
def toHex (bs : Bytes) : String :=
  String.ofList (bs.flatMap fun b => [hexDigit (b.toNat / 16), hexDigit (b.toNat % 16)])

/-- The value of one hexadecimal digit, either case. -/
def digitValue? (c : Char) : Option Nat :=
  if '0' ≤ c ∧ c ≤ '9' then some (c.toNat - 48)
  else if 'a' ≤ c ∧ c ≤ 'f' then some (c.toNat - 87)
  else if 'A' ≤ c ∧ c ≤ 'F' then some (c.toNat - 55)
  else none

/-- Pairs of digits to bytes; an odd digit count or another character is refused. -/
def ofHexDigits? : List Char → Option Bytes
  | [] => some []
  | [_] => none
  | hi :: lo :: rest => do
    let h ← digitValue? hi
    let l ← digitValue? lo
    let tail ← ofHexDigits? rest
    pure ((h * 16 + l).toUInt8 :: tail)

/-- Hexadecimal text to bytes; blanks between digits are ignored. -/
def ofHex? (s : String) : Option Bytes :=
  ofHexDigits? (s.toList.filter fun c => !c.isWhitespace)

/-- The UTF-8 bytes of a string. -/
def ofString (s : String) : Bytes := s.toUTF8.toList

end Bytes

end ShardStore
