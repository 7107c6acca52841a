import ShardStore.Text.Blank
import ShardStore.Decimal.Read
/-!
Reading the YAML that settings files are written in.

The reader covers block mappings and sequences laid out by indentation, including a sequence at
the indentation of the key it belongs to and an entry that starts a mapping on the dash's line;
flow sequences and mappings in brackets; plain, single-quoted and double-quoted scalars, with
plain scalars continued over more indented lines; comments; and a document start marker. A tab
may not indent, and a text holding a second document is refused. Anchors, aliases, tags and
block scalars are refused too: settings never need them.

An unquoted scalar stands for null, a boolean, an integer or a float when its text has one of
their forms, and for text otherwise; a quoted scalar is always text. Integers may be written in
hexadecimal, octal or binary after `0x`, `0o` or `0b`, a decimal integer may not have a leading
zero, and a float is a decimal, `.inf`, `-.inf` or `.nan`.
-/

namespace ShardStore

/-- A YAML node. -/
inductive Yaml where
  /-- A scalar's text and whether it was written plain, without quotes. -/
  | scalar (text : String) (plain : Bool)
  | seq (items : List Yaml)
  | map (entries : List (Yaml × Yaml))
deriving Inhabited, Repr

namespace Yaml

/-- The empty node, which an absent value stands for. -/
def null : Yaml := .scalar "" true

/-- A line of a block: its indentation and its text without comment and trailing blanks. -/
structure Line where
  indent : Nat
  text : List Char

/-- Blanks between tokens. -/
def isSpace (c : Char) : Bool := c == ' ' || c == '\t'

/-- Drop leading blanks. -/
def dropSpace (cs : List Char) : List Char := cs.dropWhile isSpace

/-- Drop trailing blanks. -/
def trimEnd (cs : List Char) : List Char := (dropSpace cs.reverse).reverse

/-- Whether a quote at this point opens a quoted scalar: at the start or after a blank or a
flow indicator. -/
def opensQuote (prev : Char) : Bool :=
  isSpace prev || prev == '[' || prev == '\x7b' || prev == ','

/-- Where a scan of a line stands with respect to quoted scalars. -/
inductive Quoting where
  | outside
  | double
  /-- Just after a backslash in a double-quoted scalar. -/
  | doubleEscape
  | single
  /-- Just after a quote in a single-quoted scalar: the end, unless another quote follows. -/
  | singleEnd

/-- A line without its comment. A comment starts with `#` at the start or after a blank, outside
quoted scalars. -/
def cutComment (prev : Char) (q : Quoting) : List Char → List Char
  | [] => []
  | c :: rest =>
    match q with
    | .double =>
      let next := if c == '\\' then .doubleEscape else if c == '"' then .outside else .double
      c :: cutComment c next rest
    | .doubleEscape => c :: cutComment c .double rest
    | .single => c :: cutComment c (if c == '\'' then .singleEnd else .single) rest
    | .singleEnd =>
      if c == '\'' then c :: cutComment c .single rest
      else if c == '#' && isSpace prev then []
      else c :: cutComment c .outside rest
    | .outside =>
      if c == '#' && isSpace prev then []
      else if c == '"' && opensQuote prev then c :: cutComment c .double rest
      else if c == '\'' && opensQuote prev then c :: cutComment c .single rest
      else c :: cutComment c .outside rest

/-- A physical line as a block line; none when it is blank or only a comment. A tab in the
indentation of a line with content is refused. -/
def toLine (raw : List Char) : Except String (Option Line) :=
  let raw := if raw.getLast? == some '\r' then raw.dropLast else raw
  let lead := raw.takeWhile isSpace
  let text := trimEnd (cutComment ' ' .outside (raw.drop lead.length))
  if text.isEmpty then pure none
  else if lead.contains '\t' then throw "tab in indentation"
  else pure (some ⟨lead.length, text⟩)

/-- Whether a line starts a sequence entry: a dash alone or followed by a blank. -/
def isEntry (t : List Char) : Bool :=
  match t with
  | ['-'] => true
  | '-' :: c :: _ => isSpace c
  | _ => false

/-- Whether a line is a document marker with this text. -/
def isMarker (marker : List Char) (l : Line) : Bool :=
  l.indent == 0 && (l.text == marker ||
    (l.text.take 3 == marker && match l.text.drop 3 with
      | c :: _ => isSpace c
      | [] => true))

/-- The lines of the one document of a text: directives and a start marker before it are
dropped, an end marker closes it, and a second document is refused. -/
def documentLines (ls : List Line) : Except String (List Line) := do
  let ls := ls.dropWhile fun l => l.indent == 0 && l.text.head? == some '%'
  let ls := match ls with
    | l :: rest =>
      if isMarker ['-', '-', '-'] l then
        let after := dropSpace (l.text.drop 3)
        if after.isEmpty then rest else ⟨4, after⟩ :: rest
      else ls
    | [] => []
  let body := ls.takeWhile fun l => !isMarker ['.', '.', '.'] l
  if body.any (isMarker ['-', '-', '-']) then throw "more than one document"
  match ls.drop body.length with
  | [] | [_] => pure body
  | _ => throw "more than one document"

/-! ### Quoted scalars -/

/-- Where a scan of a double-quoted scalar stands with respect to escapes. -/
inductive Escape where
  | none
  /-- Just after a backslash. -/
  | start
  /-- Inside a code in hexadecimal: the digits still to come and the value so far. -/
  | hex (left value : Nat)

/-- The character of a simple escape. -/
def simpleEscape (c : Char) : Option Char :=
  match c with
  | '0' => some (Char.ofNat 0) | 'a' => some (Char.ofNat 7) | 'b' => some (Char.ofNat 8)
  | 't' | '\t' => some '\t' | 'n' => some '\n' | 'v' => some (Char.ofNat 11)
  | 'f' => some (Char.ofNat 12) | 'r' => some '\r' | 'e' => some (Char.ofNat 27)
  | ' ' => some ' ' | '"' => some '"' | '/' => some '/' | '\\' => some '\\'
  | 'N' => some (Char.ofNat 0x85) | '_' => some (Char.ofNat 0xA0)
  | 'L' => some (Char.ofNat 0x2028) | 'P' => some (Char.ofNat 0x2029)
  | _ => none

/-- The value of a hexadecimal digit. -/
def hexDigit? (c : Char) : Option Nat :=
  if c.isDigit then some (c.toNat - 48)
  else if 'a' ≤ c ∧ c ≤ 'f' then some (c.toNat - 87)
  else if 'A' ≤ c ∧ c ≤ 'F' then some (c.toNat - 55)
  else none

/-- The rest of a double-quoted scalar: its text, and what follows the closing quote. -/
def doubleQuoted (acc : List Char) (esc : Escape) :
    List Char → Except String (String × List Char)
  | [] => throw "unterminated string"
  | c :: rest =>
    match esc with
    | .none =>
      if c == '"' then pure (String.ofList acc.reverse, rest)
      else if c == '\\' then doubleQuoted acc .start rest
      else doubleQuoted (c :: acc) .none rest
    | .start =>
      match simpleEscape c with
      | some d => doubleQuoted (d :: acc) .none rest
      | none =>
        if c == 'x' then doubleQuoted acc (.hex 2 0) rest
        else if c == 'u' then doubleQuoted acc (.hex 4 0) rest
        else if c == 'U' then doubleQuoted acc (.hex 8 0) rest
        else throw "invalid escape"
    | .hex left value =>
      match hexDigit? c with
      | none => throw "invalid escape"
      | some d =>
        let value := value * 16 + d
        if left ≤ 1 then
          if value.isValidChar then doubleQuoted (Char.ofNat value :: acc) .none rest
          else throw "invalid escape"
        else doubleQuoted acc (.hex (left - 1) value) rest

/-- The rest of a single-quoted scalar, where a doubled quote stands for one. -/
def singleQuoted (acc : List Char) : List Char → Except String (String × List Char)
  | [] => throw "unterminated string"
  | '\'' :: '\'' :: rest => singleQuoted ('\'' :: acc) rest
  | '\'' :: rest => pure (String.ofList acc.reverse, rest)
  | c :: rest => singleQuoted (c :: acc) rest

/-- A quoted scalar at the start of a text, and what follows it. -/
def quoted? (cs : List Char) : Option (Except String (String × List Char)) :=
  match cs with
  | '"' :: rest => some (doubleQuoted [] .none rest)
  | '\'' :: rest => some (singleQuoted [] rest)
  | _ => none

/-! ### Flow collections -/

/-- Whether a colon here separates a key from its value in a flow collection. -/
def flowColon (rest : List Char) : Bool :=
  match rest with
  | [] => true
  | c :: _ => isSpace c || c == ',' || c == ']' || c == '\x7d' || c == '[' || c == '\x7b'

/-- A plain scalar inside a flow collection: up to a flow indicator or a separating colon. -/
def flowPlain (acc : List Char) : List Char → List Char × List Char
  | [] => (acc.reverse, [])
  | c :: rest =>
    if c == ',' || c == '[' || c == ']' || c == '\x7b' || c == '\x7d' then (acc.reverse, c :: rest)
    else if c == ':' && flowColon rest then (acc.reverse, c :: rest)
    else flowPlain (c :: acc) rest

mutual

/-- A node inside a flow collection, and what follows it. -/
def flowNode : Nat → List Char → Except String (Yaml × List Char)
  | 0, _ => throw "nesting too deep"
  | fuel + 1, cs =>
    match dropSpace cs with
    | '[' :: rest => flowSeq fuel [] rest
    | '\x7b' :: rest => flowMap fuel [] rest
    | cs =>
      match quoted? cs with
      | some r => do
        let (s, after) ← r
        pure (.scalar s false, after)
      | none =>
        let (text, after) := flowPlain [] cs
        let text := trimEnd text
        if text.isEmpty then throw "expected a node"
        else pure (.scalar (String.ofList text) true, after)

/-- The items of a flow sequence after its opening bracket. -/
def flowSeq : Nat → List Yaml → List Char → Except String (Yaml × List Char)
  | 0, _, _ => throw "nesting too deep"
  | fuel + 1, acc, cs =>
    match dropSpace cs with
    | ']' :: rest => pure (.seq acc.reverse, rest)
    | cs => do
      let (item, after) ← flowNode fuel cs
      match dropSpace after with
      | ',' :: more => flowSeq fuel (item :: acc) more
      | ']' :: more => pure (.seq (item :: acc).reverse, more)
      | _ => throw "expected , or ]"

/-- The entries of a flow mapping after its opening brace. -/
def flowMap : Nat → List (Yaml × Yaml) → List Char → Except String (Yaml × List Char)
  | 0, _, _ => throw "nesting too deep"
  | fuel + 1, acc, cs =>
    match dropSpace cs with
    | '\x7d' :: rest => pure (.map acc.reverse, rest)
    | cs => do
      let (k, after) ← flowNode fuel cs
      let (v, after) ← match dropSpace after with
        | ':' :: more =>
          match dropSpace more with
          | ',' :: _ | '\x7d' :: _ => pure (null, more)
          | _ => flowNode fuel more
        | more => pure (null, more)
      match dropSpace after with
      | ',' :: more => flowMap fuel ((k, v) :: acc) more
      | '\x7d' :: more => pure (.map ((k, v) :: acc).reverse, more)
      | _ => throw "expected , or \x7d"

end

/-! ### Blocks -/

/-- Whether a plain scalar in a block holds a mapping indicator, which is not allowed there. -/
def hasIndicator : List Char → Bool
  | [] => false
  | ':' :: rest =>
    match rest with
    | [] => true
    | c :: _ => isSpace c || hasIndicator rest
  | _ :: rest => hasIndicator rest

/-- The node a value's text stands for: a flow collection, a quoted scalar, or a plain scalar.
The text holds the value's continuation lines joined by blanks. -/
def inlineNode (fuel : Nat) (cs : List Char) : Except String Yaml :=
  match cs with
  | [] => pure null
  | c :: _ =>
    if c == '[' || c == '\x7b' then do
      let (node, after) ← flowNode fuel cs
      if (dropSpace after).isEmpty then pure node else throw "text after a flow collection"
    else match quoted? cs with
      | some r => do
        let (s, after) ← r
        if (dropSpace after).isEmpty then pure (.scalar s false) else throw "text after a string"
      | none =>
        if "&*!|>%@".toList.contains c || c == Char.ofNat 96 then throw "unsupported node"
        else if (c == '?' || c == ':') && (cs.drop 1).head?.all isSpace then
          throw "unsupported node"
        else if isEntry cs then throw "sequence entry not allowed here"
        else if hasIndicator cs then throw "mapping value not allowed here"
        else pure (.scalar (String.ofList cs) true)

/-- A value starting with some text on its line and continued on the following lines indented at
least `min`; the node, and the lines after it. -/
def inlineValue (fuel min : Nat) (text : List Char) (ls : List Line) :
    Except String (Yaml × List Line) := do
  let more := ls.takeWhile (·.indent ≥ min)
  let joined := more.foldl (fun acc l => acc ++ ' ' :: l.text) text
  pure (← inlineNode fuel joined, ls.drop more.length)

/-- A line's key when it is a mapping entry, with the text after the colon. -/
def splitKey? (t : List Char) : Option (Except String (Yaml × List Char)) :=
  match quoted? t with
  | some r =>
    match r with
    | .ok (s, after) =>
      match dropSpace after with
      | ':' :: rest =>
        if rest.isEmpty || rest.head?.any isSpace then some (pure (.scalar s false, rest)) else none
      | _ => none
    | .error _ => none
  | none =>
    match t with
    | '[' :: _ | '\x7b' :: _ => none
    | _ =>
      let rec go (acc : List Char) : List Char → Option (List Char × List Char)
        | [] => none
        | ':' :: rest =>
          if rest.isEmpty || rest.head?.any isSpace then some (acc.reverse, rest)
          else go (':' :: acc) rest
        | c :: rest => go (c :: acc) rest
      (go [] t).map fun (k, rest) =>
        let k := trimEnd k
        if k.isEmpty then throw "empty key" else pure (.scalar (String.ofList k) true, rest)

mutual

/-- The node whose lines are indented at least `min`, from the first line on; the node, and the
lines after it. No such line is the empty node. -/
def block : Nat → Nat → List Line → Except String (Yaml × List Line)
  | 0, _, _ => throw "nesting too deep"
  | fuel + 1, min, ls =>
    match ls with
    | [] => pure (null, [])
    | l :: rest =>
      if l.indent < min then pure (null, ls)
      else if isEntry l.text then sequence fuel l.indent [] ls
      else match splitKey? l.text with
        | some _ => mapping fuel l.indent [] ls
        | none => inlineValue fuel min l.text rest

/-- The entries of a block sequence at indentation `n`. -/
def sequence : Nat → Nat → List Yaml → List Line → Except String (Yaml × List Line)
  | 0, _, _, _ => throw "nesting too deep"
  | fuel + 1, n, acc, ls =>
    match ls with
    | [] => pure (.seq acc.reverse, [])
    | l :: rest =>
      if l.indent < n || (l.indent == n && !isEntry l.text) then pure (.seq acc.reverse, ls)
      else if l.indent > n then throw "bad indentation of a sequence entry"
      else
        let body := l.text.drop 1
        let gap := (body.takeWhile isSpace).length
        let content := body.drop gap
        let lines := if content.isEmpty then rest else ⟨n + 1 + gap, content⟩ :: rest
        match block fuel (n + 1) lines with
        | .ok (item, rest) => sequence fuel n (item :: acc) rest
        | .error e => throw e

/-- The entries of a block mapping at indentation `n`. -/
def mapping :
    Nat → Nat → List (Yaml × Yaml) → List Line → Except String (Yaml × List Line)
  | 0, _, _, _ => throw "nesting too deep"
  | fuel + 1, n, acc, ls =>
    match ls with
    | [] => pure (.map acc.reverse, [])
    | l :: rest =>
      if l.indent < n then pure (.map acc.reverse, ls)
      else if l.indent > n then throw "bad indentation of a mapping entry"
      else match splitKey? l.text with
        | none => throw "expected a mapping entry"
        | some (.error e) => throw e
        | some (.ok (k, after)) =>
          let after := dropSpace after
          let value : Except String (Yaml × List Line) :=
            if !after.isEmpty then inlineValue fuel (n + 1) after rest
            else match rest with
              | l2 :: _ =>
                if l2.indent == n && isEntry l2.text then sequence fuel n [] rest
                else block fuel (n + 1) rest
              | [] => pure (null, [])
          match value with
          | .ok (v, rest) => mapping fuel n ((k, v) :: acc) rest
          | .error e => throw e

end

/-- Read a document. An empty document is the empty node. -/
def read (text : String) : Except String Yaml := do
  let lines ← (text.splitOn "\n").filterMapM fun raw => toLine raw.toList
  let lines ← documentLines lines
  let fuel := 4 * text.length + 16
  let (node, rest) ← block fuel 0 lines
  if rest.isEmpty then pure node else throw "unexpected text after the document"

/-! ### What plain scalars stand for -/

/-- What an unquoted scalar stands for. -/
inductive Plain where
  | null
  | bool (b : Bool)
  | int (i : Int)
  | float (f : Float)
  | text

/-- The value of digits in a radix, with an optional leading plus; none for no digits or a digit
outside the radix. -/
def radixValue? (radix : Nat) (cs : List Char) : Option Nat :=
  let cs := match cs with
    | '+' :: rest => rest
    | _ => cs
  if cs.isEmpty then none
  else cs.foldlM (fun n c =>
    let d := if c.isDigit then c.toNat - 48
      else if 'a' ≤ c ∧ c ≤ 'z' then c.toNat - 87
      else if 'A' ≤ c ∧ c ≤ 'Z' then c.toNat - 55
      else 99
    if d < radix then some (n * radix + d) else none) 0

/-- Whether a text is digits with a leading zero, which stays text. -/
def leadingZero (cs : List Char) : Bool :=
  let cs := match cs with
    | '+' :: rest | '-' :: rest => rest
    | _ => cs
  match cs with
  | '0' :: rest@(_ :: _) => rest.all Char.isDigit
  | _ => false

/-- Whether a text starts with a sign. -/
def signed (cs : List Char) : Bool := cs.head? == some '+' || cs.head? == some '-'

/-- A radix prefix and the digits after it. -/
def radixOf (cs : List Char) : Option (Nat × List Char) :=
  match cs with
  | '0' :: 'x' :: rest => some (16, rest)
  | '0' :: 'o' :: rest => some (8, rest)
  | '0' :: 'b' :: rest => some (2, rest)
  | _ => none

/-- A non-negative integer below `2 ^ 128`. -/
def unsignedInt? (cs : List Char) : Option Nat :=
  let body := match cs with
    | '+' :: rest => if signed rest then none else some rest
    | _ => some cs
  body.bind fun body =>
    let prefixed := (radixOf body).bind fun (r, ds) => if signed ds then none else radixValue? r ds
    let n := prefixed.orElse fun _ =>
      if signed body || leadingZero cs then none else radixValue? 10 body
    n.filter (· < Nat.pow 2 128)

/-- A negative integer, or zero written with a minus, not below `-2 ^ 127`. -/
def negativeInt? (cs : List Char) : Option Int :=
  match cs with
  | '-' :: rest =>
    let prefixed := (radixOf rest).bind fun (r, ds) => if signed ds then none else radixValue? r ds
    let n := prefixed.orElse fun _ =>
      if leadingZero cs || signed rest then none else radixValue? 10 rest
    (n.filter (· ≤ Nat.pow 2 127)).map fun n => -(n : Int)
  | _ => none

/-- A finite float, or one of the special forms. -/
def float? (cs : List Char) : Option Float :=
  let s := String.ofList cs
  if [".inf", ".Inf", ".INF", "+.inf", "+.Inf", "+.INF"].contains s then some Decimal.infinity
  else if ["-.inf", "-.Inf", "-.INF"].contains s then some (-Decimal.infinity)
  else if [".nan", ".NaN", ".NAN"].contains s then some (0.0 / 0.0)
  else match cs with
    | '+' :: rest =>
      if signed rest then none else (Decimal.readFloat? (String.ofList rest)).filter (·.isFinite)
    | _ => (Decimal.readFloat? s).filter (·.isFinite)

/-- What an unquoted scalar stands for, tried in the order null, boolean, integer, float. -/
def resolve (s : String) : Plain :=
  let cs := s.toList
  if ["", "~", "null", "Null", "NULL"].contains s then .null
  else if ["true", "True", "TRUE"].contains s then .bool true
  else if ["false", "False", "FALSE"].contains s then .bool false
  else match unsignedInt? cs with
    | some n => .int n
    | none =>
      match negativeInt? cs with
      | some i => .int i
      | none =>
        if leadingZero cs then .text
        else match float? cs with
          | some f => .float f
          | none => .text

end Yaml

end ShardStore
