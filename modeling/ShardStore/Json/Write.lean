import ShardStore.Json.Value
import ShardStore.Decimal.Layout
import ShardStore.Bytes.Word
/-!
Writing JSON text.

Strings escape the quote, the backslash and the control characters, using the short escapes
where JSON has them and `\u00xx` otherwise; every other character is written as it is. Floats
are written with their shortest digits laid out by `Layout.standard`; a float that is not finite
is written `null`. `compact` writes no blanks; `pretty` puts every member and item on its own
line, indented by two spaces a level, with `": "` after a key and `{}` or `[]` for an empty
container.
-/

namespace ShardStore

namespace Json

/-- Four lowercase hexadecimal digits. -/
def hex4 (n : Nat) : String :=
  String.ofList ((List.range 4).reverse.map fun i => Bytes.hexDigit (n / Nat.pow 16 i % 16))

/-- The escaped form of one character inside a string. -/
def escapeChar (c : Char) : String :=
  if c = '"' then "\\\"" else if c = '\\' then "\\\\"
  else if c.toNat = 8 then "\\b" else if c.toNat = 12 then "\\f"
  else if c = '\n' then "\\n" else if c = '\r' then "\\r" else if c = '\t' then "\\t"
  else if c.toNat < 32 then "\\u" ++ hex4 c.toNat
  else String.singleton c

/-- A string literal. -/
def quote (s : String) : String := "\"" ++ String.join (s.toList.map escapeChar) ++ "\""

/-- A number's text. -/
def floatText (x : Float) : String :=
  match Decimal.ofFloat x with
  | some (minus, d) => Decimal.Layout.standard.render minus d
  | none => "null"

/-- A scalar's text; containers are handled by the writers. -/
def scalarText : Json → String
  | .null => "null"
  | .bool b => if b then "true" else "false"
  | .nat n => toString n
  | .neg n => toString n
  | .float x => floatText x
  | .str s => quote s
  | _ => ""

mutual

/-- Compact text. -/
def compact : Json → String
  | arr xs => "[" ++ ",".intercalate (compactItems xs) ++ "]"
  | obj fs => "\x7b" ++ ",".intercalate (compactFields fs) ++ "\x7d"
  | j => scalarText j

/-- Items in compact text. -/
def compactItems : List Json → List String
  | [] => []
  | x :: xs => compact x :: compactItems xs

/-- Members in compact text. -/
def compactFields : List (String × Json) → List String
  | [] => []
  | (k, v) :: fs => (quote k ++ ":" ++ compact v) :: compactFields fs

end

/-- Two spaces a level. -/
def indent (n : Nat) : String := String.ofList (List.replicate (2 * n) ' ')

mutual

/-- Indented text at nesting level `n`. -/
def prettyAt (n : Nat) : Json → String
  | arr [] => "[]"
  | obj [] => "\x7b\x7d"
  | arr xs => "[\n" ++ ",\n".intercalate (prettyItems (n + 1) xs) ++ "\n" ++ indent n ++ "]"
  | obj fs => "\x7b\n" ++ ",\n".intercalate (prettyFields (n + 1) fs) ++ "\n" ++ indent n ++ "\x7d"
  | j => scalarText j

/-- Items at level `n`, each indented. -/
def prettyItems (n : Nat) : List Json → List String
  | [] => []
  | x :: xs => (indent n ++ prettyAt n x) :: prettyItems n xs

/-- Members at level `n`, each indented. -/
def prettyFields (n : Nat) : List (String × Json) → List String
  | [] => []
  | (k, v) :: fs => (indent n ++ quote k ++ ": " ++ prettyAt n v) :: prettyFields n fs

end

/-- Indented text. -/
def pretty (j : Json) : String := prettyAt 0 j

end Json

end ShardStore
