import ShardStore.Bytes.Word
/-!
Literal forms of values inside messages.

Some error messages quote a value as it would be written in source text: a string between double
quotes with its quotes, backslashes and control characters escaped, a byte list as
`[1, 2]`, a set of strings as `\x7b"a", "b"\x7d`, a missing value as `None`.
-/

namespace ShardStore

namespace Literal

/-- Lower-case hexadecimal digits of a number, at least one. -/
def hexDigits (n : Nat) : String :=
  String.ofList (Nat.toDigits 16 n)

/-- Whether a character is shown as a `\u` escape: control characters and combining marks. -/
def hidden (c : Char) : Bool :=
  let n := c.toNat
  n < 0x20 || (0x7f ≤ n && n < 0xa0) || n == 0xad || (0x300 ≤ n && n < 0x370) ||
    (0x200b ≤ n && n < 0x2010) || (0x2028 ≤ n && n < 0x202f) || (0x2060 ≤ n && n < 0x2070) ||
    n == 0xfeff || (0xd800 ≤ n && n < 0xe000) || (0xfff0 ≤ n && n < 0xfffc)

/-- One character inside a quoted string. -/
def escapeChar (c : Char) : String :=
  match c with
  | '\x00' => "\\0"
  | '\t' => "\\t"
  | '\r' => "\\r"
  | '\n' => "\\n"
  | '\\' => "\\\\"
  | '"' => "\\\""
  | c => if hidden c then "\\u\x7b" ++ hexDigits c.toNat ++ "\x7d" else c.toString

/-- A string between double quotes. -/
def string (s : String) : String :=
  "\"" ++ String.join (s.toList.map escapeChar) ++ "\""

/-- Items between brackets, separated by a comma and a space. -/
def list (open_ close : String) (items : List String) : String :=
  open_ ++ ", ".intercalate items ++ close

/-- A byte list. -/
def bytes (bs : Bytes) : String := list "[" "]" (bs.map fun b => toString b.toNat)

/-- A set of strings. -/
def stringSet (ss : List String) : String := list "\x7b" "\x7d" (ss.map string)

/-- An optional value. -/
def option {α : Type} (show_ : α → String) : Option α → String
  | none => "None"
  | some x => "Some(" ++ show_ x ++ ")"

end Literal

end ShardStore
