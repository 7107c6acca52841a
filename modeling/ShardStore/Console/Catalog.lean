import ShardStore.Console.Form
import ShardStore.Filter.Catalog
/-!
Filter bundles given in a request.

A request may carry `bundles`, a map from bundle names to lists of filter specifications. A
specification names its filter and its kind: `single` (the default) is a script with `require`,
`forbid` and `actions`; `gas_max` and `edge_marker` are group filters on a graph `graph` that
write under the `info` word `out`. The bundles join the built-in one in the catalog, a bundle of
the same name replacing it.
-/

namespace ShardStore

namespace Console

/-- A part of a script key: a number, or `b`, `c` or `ci` of the running entry. -/
def keyPart (j : Json) : Answer Script.Part :=
  match j with
  | .str "b" => pure .b
  | .str "c" => pure .c
  | .str "ci" => pure .info
  | other =>
    match other.int? with
    | some n => pure (.num n)
    | none => refuse s!"bad key part {other.compact}"

/-- A script key. -/
def keyForm (j : Json) : Answer Script.KeyForm :=
  match j with
  | .arr [a, b, c] => do return ⟨← keyPart a, ← keyPart b, ← keyPart c⟩
  | other => refuse s!"bad key {other.compact}"

/-- A list of actions, read by `one`. -/
def actionList (one : Json → Answer Script.Action) (j : Json) (k : String) :
    Answer (List Script.Action) :=
  match opt j k with
  | some (.arr xs) => xs.mapM one
  | some other => refuse s!"expected array, got {other.compact}"
  | none => pure []

/-- One script action. -/
def action (fuel : Nat) (j : Json) : Answer Script.Action :=
  match fuel with
  | 0 => refuse "actions nest too deep"
  | fuel + 1 => do
    let s (k : String) : Answer String := do str (← field j k)
    match ← s "op" with
    | "add_tag" => return .addTag (← s "tag")
    | "remove_tag" => return .removeTag (← s "tag")
    | "set_value" => return .setValue (← bytes (← field j "value"))
    | "new_entry" =>
      return .newEntry (← keyForm (← field j "key")) (← strs (← field j "tags"))
        (← bytes (← field j "value"))
    | "subscribe" =>
      let tag ← s "tag"
      let wake ← match ← s "wake" with
        | "add_tag" => pure (Wake.addTag tag)
        | "remove_tag" => pure (Wake.removeTag tag)
        | other => refuse s!"unknown wake {other}"
      return .subscribe (← keyForm (← field j "wait")) wake
    | "resume_on" => return .subscribe (← keyForm (← field j "wait")) (.removeTag (← s "tag"))
    | "lookup" =>
      return .lookup (← keyForm (← field j "key")) (← actionList (action fuel) j "found")
        (← actionList (action fuel) j "missing")
    | "if_tag" =>
      return .ifTag (← s "tag") (← actionList (action fuel) j "then")
        (← actionList (action fuel) j "else")
    | "query" => return .query (← strs (← field j "tags"))
    | "fail" => return .fail (← s "message")
    | other => refuse s!"unknown action {other}"

/-- A list of strings under a key, empty when missing. -/
def strsD (j : Json) (k : String) : Answer (List String) :=
  match opt j k with
  | some v => strs v
  | none => pure []

/-- One filter specification. -/
def filterSpec (j : Json) : Answer Filter := do
  let name ← str (← field j "name")
  let kind ← match opt j "kind" with
    | some k => str k
    | none => pure "single"
  match kind with
  | "single" =>
    return .single (.script ⟨name, ← strsD j "require", ← strsD j "forbid",
      ← actionList (action 64) j "actions"⟩)
  | "gas_max" =>
    let g ← u64 (← field j "graph")
    let out ← u64 (← field j "out")
    return .group (.maximum name g out)
  | "edge_marker" =>
    let g ← u64 (← field j "graph")
    let out ← u64 (← field j "out")
    let add ← str (← field j "add")
    let remove ← str (← field j "remove")
    return .group (.marker name g out add remove (← strsD j "count"))
  | other => refuse s!"unknown filter kind {other}"

/-- The catalog: the built-in bundle and the request's `bundles`. -/
def catalogOf (req : Json) : Answer Catalog := do
  match opt req "bundles" with
  | none => pure Catalog.builtin
  | some b =>
    (← members b).foldlM (fun c (name, specs) => do
      let fs ← (← arr specs).mapM filterSpec
      pure (c.register name fs)) Catalog.builtin

/-- How a filter shows itself. -/
def filterJson (f : Filter) : Json :=
  Json.record [("name", .str f.name), ("kind", .str f.kindName),
    ("debug", .str ("Filter \x7b name: " ++ Literal.string f.name ++ ", kind: " ++ f.kindName ++ " \x7d"))]

/-- The catalog a request describes, bundle by bundle. -/
def catalogOp (req : Json) : Answer Json := do
  let c ← catalogOf req
  return .obj (c.bundles.map fun (name, fs) => (name, .arr (fs.map filterJson)))

end Console

end ShardStore
