import ShardStore.Entry
/-!
The two file formats of a store.

An export holds an entry count, then each entry's length and binary form; reading one needs
every byte used and every announced length present. A text file holds entries as blocks:
a line `TAGS`, one tag a line, a line `VALUE`, value lines, and a line `END`; lines outside a
block are skipped, and each value line is kept with a line break after it. Entries read from
text carry the unassigned key, for the store to assign one.
-/

namespace ShardStore

namespace Files

/-- The export form of a list of entries. -/
def serialize (es : List Entry) : Bytes :=
  Encode.len es.length ++ es.flatMap fun e => Encode.len e.size ++ e.encode

/-- One exported entry: its length, then exactly that many bytes holding it. -/
def sizedEntry (N : Normalizer := .lenient) : Decoder Entry := do
  let size ← Decoder.len 1
  let bs ← Decoder.take size
  match Entry.decode bs N with
  | .ok e => pure e
  | .error err => Decoder.fail err

/-- Read an export, tag lists normalized by `N`. -/
def deserialize (bs : Bytes) (N : Normalizer := .lenient) : Except DecodeError (List Entry) :=
  Decoder.runAll (do
    let n ← Decoder.len 8
    Decoder.many (sizedEntry N) n) bs

/-- Lines as a line reader yields them: split at line feeds, a carriage return before a line
feed dropped, and a last line without a line feed kept as it is when not empty. -/
def lines (s : String) : List String :=
  let parts := s.toList.splitOn '\n'
  let closed := parts.dropLast.map fun l =>
    String.ofList (if l.getLast? = some '\r' then l.dropLast else l)
  match parts.getLast? with
  | some [] | none => closed
  | some last => closed ++ [String.ofList last]

/-- Where the text reader is. -/
inductive Block where
  | outside
  | tags
  | value
deriving DecidableEq, Repr

/-- The text reader's state: where it is, the entry being read, the entries done. -/
structure Reading where
  block : Block
  current : Entry
  done : List Entry

/-- A fresh entry for a text block. -/
def blank : Entry := ⟨Key.unassigned, TagSet.empty, []⟩

/-- Read one line. -/
def readLine (r : Reading) (line : String) : Reading :=
  match r.block with
  | .outside => if line = "TAGS" then { r with block := .tags } else r
  | .tags =>
    if line = "VALUE" then { r with block := .value }
    else { r with current := (r.current.addTag line).1 }
  | .value =>
    if line = "END" then ⟨.outside, blank, r.current :: r.done⟩
    else { r with current := r.current.addToValue line }

/-- Read a text file of entry blocks; `name` names the file in errors. -/
def parseText (name : String) (bs : Bytes) : Outcome (List Entry) :=
  match Bytes.utf8? bs with
  | none => .error (.io "stream did not contain valid UTF-8")
  | some s =>
    let r := (lines s).foldl readLine ⟨.outside, blank, []⟩
    if r.block = .outside then .ok r.done.reverse
    else .error (.invalidDbFile s!"{name}: unterminated entry after {r.done.length} complete entries")

end Files

end ShardStore
