import ShardStore.Bytes.Word
/-!
UTF-8 decoding.

A byte string is read one scalar value at a time by the well-formedness table of UTF-8: the lead
byte fixes the length and the admissible range of the second byte, later bytes are continuation
bytes. Where the bytes go wrong, the lossy reading puts one replacement character for the longest
prefix that could still have begun a well-formed sequence, and carries on after it; the strict
reading refuses.
-/

namespace ShardStore

namespace Bytes

/-- Whether a byte continues a sequence. -/
def isCont (b : UInt8) : Bool := 0x80 ≤ b && b ≤ 0xBF

/-- Whether the second byte is admissible after a lead byte of a three- or four-byte sequence. -/
def secondOk (lead b : UInt8) : Bool :=
  if lead == 0xE0 then 0xA0 ≤ b && b ≤ 0xBF
  else if lead == 0xED then 0x80 ≤ b && b ≤ 0x9F
  else if lead == 0xF0 then 0x90 ≤ b && b ≤ 0xBF
  else if lead == 0xF4 then 0x80 ≤ b && b ≤ 0x8F
  else isCont b

/-- The length a lead byte announces; zero for a byte that cannot lead. -/
def seqLength (b : UInt8) : Nat :=
  if b < 0x80 then 1
  else if 0xC2 ≤ b && b ≤ 0xDF then 2
  else if 0xE0 ≤ b && b ≤ 0xEF then 3
  else if 0xF0 ≤ b && b ≤ 0xF4 then 4
  else 0

/-- One step: a scalar value or the length of a maximal ill-formed prefix, and the bytes after. -/
def step : Bytes → Option (Except Nat Char × Bytes)
  | [] => none
  | b :: rest =>
    match seqLength b with
    | 1 => some (.ok (Char.ofNat b.toNat), rest)
    | 2 =>
      match rest with
      | c :: r => if isCont c then some (.ok (Char.ofNat ((b.toNat % 32) * 64 + c.toNat % 64)), r)
                  else some (.error 1, rest)
      | [] => some (.error 1, rest)
    | 3 =>
      match rest with
      | c :: r =>
        if !secondOk b c then some (.error 1, rest)
        else match r with
          | d :: r' =>
            if isCont d then
              some (.ok (Char.ofNat ((b.toNat % 16) * 4096 + (c.toNat % 64) * 64 + d.toNat % 64)), r')
            else some (.error 2, r)
          | [] => some (.error 2, r)
      | [] => some (.error 1, rest)
    | 4 =>
      match rest with
      | c :: r =>
        if !secondOk b c then some (.error 1, rest)
        else match r with
          | d :: r' =>
            if !isCont d then some (.error 2, r)
            else match r' with
              | e :: r'' =>
                if isCont e then
                  some (.ok (Char.ofNat ((b.toNat % 8) * 262144 + (c.toNat % 64) * 4096 +
                    (d.toNat % 64) * 64 + e.toNat % 64)), r'')
                else some (.error 3, r')
              | [] => some (.error 3, r')
          | [] => some (.error 2, r)
      | [] => some (.error 1, rest)
    | _ => some (.error 1, rest)

/-- The characters of a byte string, one replacement character per ill-formed prefix. -/
def lossyChars (bs : Bytes) : List Char :=
  go bs bs.length []
where
  go (bs : Bytes) (fuel : Nat) (acc : List Char) : List Char :=
    match fuel, step bs with
    | fuel + 1, some (.ok c, rest) => go rest fuel (c :: acc)
    | fuel + 1, some (.error _, rest) => go rest fuel ('�' :: acc)
    | _, _ => acc.reverse

/-- The text of a byte string, with replacement characters where it is not UTF-8. -/
def lossy (bs : Bytes) : String := String.ofList (lossyChars bs)

/-- The text of a byte string, if it is all UTF-8. -/
def utf8? (bs : Bytes) : Option String :=
  go bs bs.length []
where
  go (bs : Bytes) (fuel : Nat) (acc : List Char) : Option String :=
    match fuel, step bs with
    | fuel + 1, some (.ok c, rest) => go rest fuel (c :: acc)
    | _, some (.error _, _) => none
    | _, _ => some (String.ofList acc.reverse)

end Bytes

end ShardStore
